import Schemata.Proofs.DeclaredParameters
import Schemata.Proofs.EntryPoints
import Schemata.Proofs.RenderedReferences
import Schemata.Proofs.StagedReferences

/-! Parameters, one by one. All parameters of an input type are compiled in one call, with one memory and one
table that is kept only in the end. Yet every record is what the call for its reference alone would have
given, and the table is that of these calls one after another. -/

namespace Schemata

/-- What is given to compile a reference alone: its canonical text without its mark. -/
def TypeSpec.unmarked (spec : TypeSpec) : Referent := .written (.text spec.optional.render)

theorem TypeSpec.read_unmarked {value : Value} {spec : TypeSpec} (accepted : read true value = .ok spec) :
    read false (.text spec.optional.render) = .ok spec.optional := by
  have wellFormed : spec.optional.IsWellFormed := by
    have formed := (wellFormed_of_read accepted).1
    cases spec <;> exact formed
  refine wellFormed.read_render fun required => ?_
  cases spec <;> cases required

namespace Setting

def inputName? (setting : Setting) : TypeSpec → Option String
  | .named name _ _ =>
    match classify setting.catalog setting.registry name with
    | .ok (.entry .input _) => some name
    | _ => none
  | .array .. => none

variable {setting : Setting} {spec : TypeSpec}

theorem inputName?_eq_some {name : String} : setting.inputName? spec = some name ↔
    ∃ required nullable entry, spec = .named name required nullable ∧
      classify setting.catalog setting.registry name = .ok (.entry .input entry) := by
  cases spec with
  | array => simp [inputName?]
  | named given required nullable =>
    simp only [inputName?]
    split
    next entry classified =>
      constructor
      · intro same
        cases same
        exact ⟨required, nullable, entry, rfl, classified⟩
      · intro named
        obtain ⟨_, _, _, same, -⟩ := named
        cases same
        rfl
    next other =>
      constructor
      · intro none
        cases none
      · intro named
        obtain ⟨_, _, entry, same, classified⟩ := named
        cases same
        exact absurd classified (other entry)

/-- The mark of a field says nothing about the schema. -/
theorem compileSpec_optional (noInput : setting.inputName? spec = none) (chain : List Name) :
    compileSpec setting chain spec.optional = compileSpec setting chain spec := by
  cases spec with
  | array => rfl
  | named name required nullable =>
    have same : compileName setting chain name false nullable = compileName setting chain name required nullable := by
      cases denotation setting.catalog setting.registry name with
      | nothing classified => rw [compileName_error classified, compileName_error classified]
      | primitive classified => rw [compileName_primitive classified, compileName_primitive classified]
      | input classified => simp [inputName?, classified] at noInput
      | scalar classified => rw [compileName_scalar classified, compileName_scalar classified]
      | type named classified => rw [compileName_named named classified, compileName_named named classified]
    exact congrArg (Walk.memoized (.named name false nullable)) same

/-- At the beginning of a call a canonical text without its mark is compiled as the reference itself. -/
theorem run_unmarked {value : Value} (read : TypeSpec.read true value = .ok spec)
    (noInput : setting.inputName? spec = none) {progress : Progress} (fresh : progress.known = []) :
    (Compiled.ofReferent setting spec.unmarked).run progress =
      (compileSpec setting [] spec >>= fun schema => pure (.single schema)).run progress := by
  rw [TypeSpec.unmarked, Compiled.ofReferent, TypeSpec.read_unmarked read, ← compileSpec_optional noInput]
  simp only [Walk.ofReading, pure_bind]
  cases spec with
  | array => rfl
  | named name required nullable =>
    cases classified : classify setting.catalog setting.registry name with
    | error error =>
      -- only where nothing is remembered is an unknown name sure to be looked up
      rw [TypeSpec.optional, Compiled.ofSpec_error classified, compileSpec, Setting.spec, compileName_error classified]
      simp only [Walk.memoized, EStateM.run_bind, EStateM.run_get, fresh, List.lookup_nil]
      rfl
    | ok found =>
      rw [TypeSpec.optional, Compiled.ofSpec_named classified]
      intro entry same
      simp [inputName?, classified, same] at noInput

end Setting

namespace Compiler

variable {compiler other : Compiler} {mode : Mode} {spec : TypeSpec} {parameter : DeclaredParameter}
  {table : Table} {ahead after : Progress}

/-- What the reference of a parameter compiles to on its own. An input type is refused. -/
def compileAlone (compiler : Compiler) (mode : Mode) (spec : TypeSpec) : Except CompileError Compiled :=
  match (compiler.setting mode).inputName? spec with
  | some name => .error (.invalidReference (.written (.text spec.render)) (.nestedInput name))
  | none => (compiler.compile spec.unmarked mode).outcome

def parameterAlone (compiler : Compiler) (mode : Mode) (parameter : DeclaredParameter) :
    Except CompileError (ParameterRecord Compiled) := do
  let heading ← parameter.heading
  return parameter.record heading (← compiler.compileAlone mode heading.2.1)

structure Describes (compiler : Compiler) (mode : Mode) (parameter : DeclaredParameter) (spec : TypeSpec)
    (record : ParameterRecord Schema) : Prop where
  typed : ∃ type rest, parameter.type = .ok type ∧ Parameter.Locates type record.location rest ∧
    TypeSpec.read true rest = .ok spec
  named : parameter.name = .ok record.name
  required : record.required = spec.required
  compiled : (compiler.compile spec.unmarked mode).outcome = .ok (.single record.schema)
  description : record.description = parameter.description

/-- The other compiler differs from this one at most in what the table of a mode holds. -/
structure Stands (compiler : Compiler) (mode : Mode) (table : Table) (other : Compiler) : Prop where
  setting : other.setting mode = compiler.setting mode
  own : other.table (compiler.dialect mode) = table
  others : ∀ dialect, dialect ≠ compiler.dialect mode → other.table dialect = compiler.table dialect

theorem Stands.dialect (stands : compiler.Stands mode table other) : other.dialect mode = compiler.dialect mode :=
  congrArg Setting.dialect stands.setting

theorem Stands.setTable (stands : compiler.Stands mode table other) (later : Table) :
    compiler.Stands mode later (other.setTable (other.dialect mode) later) := by
  rw [stands.dialect]
  exact ⟨stands.setting, table_setTable_self .., fun dialect different =>
    (table_setTable_other other different later).trans (stands.others dialect different)⟩

/-- A reference in the middle of a call is a call of its own. -/
private theorem compile_unmarked (built : other.catalog.Registered) (staged : (other.setting mode).Staged table ahead)
    (begins : other.table (other.dialect mode) = table ∨ other.table (other.dialect mode) = ahead.table)
    {value : Value} (read : TypeSpec.read true value = .ok spec)
    (noInput : (other.setting mode).inputName? spec = none) :
    match (compileSpec (other.setting mode) [] spec).run ahead with
    | .ok schema after => (other.setting mode).Staged table after ∧
      (other.compile spec.unmarked mode).outcome = .ok (.single schema) ∧
      (other.table (other.dialect mode) = ahead.table →
        (other.compile spec.unmarked mode).compiler = other.setTable (other.dialect mode) after.table)
    | .error error _ => (other.compile spec.unmarked mode).outcome = .error error := by
  have fresh : (other.start spec.unmarked mode).known = [] := rfl
  have tallies := @Setting.Staged.anew (other.setting mode) spec ahead (other.start spec.unmarked mode) built table
    staged begins fresh
  rw [compile_eq, Setting.run_unmarked read noInput fresh, EStateM.run_bind]
  generalize (compileSpec (other.setting mode) [] spec).run ahead = here at tallies
  generalize (compileSpec (other.setting mode) [] spec).run _ = there at tallies
  cases tallies with
  | error => rfl
  | ok known => exact ⟨known.1, rfl, fun same => congrArg (other.setTable _) (known.2 same)⟩

section Steps

variable (built : compiler.catalog.Registered) (begun : compiler.table (compiler.dialect mode) = table)
  (staged : (compiler.setting mode).Staged table ahead)

include built begun staged

/-- A parameter that succeeds in the middle of a call. -/
private theorem describes_of_run {record : ParameterRecord Schema}
    (run : (Walk.declared (compileSpec (compiler.setting mode) []) parameter).run ahead = .ok record after) :
    (compiler.setting mode).Staged table after ∧ (∃ answer, compiler.parameterAlone mode parameter = .ok answer) ∧
      ∃ spec, compiler.Describes mode parameter spec record ∧ ∀ other, compiler.Stands mode ahead.table other →
        compiler.Stands mode after.table (other.act (.compile spec.unmarked mode)) := by
  cases headed : parameter.heading with
  | error error =>
    rw [Walk.declared, headed] at run
    exact (Walk.run_throw_ok run).elim
  | ok heading =>
    obtain ⟨location, spec, name⟩ := heading
    simp only [Walk.declared, headed, Walk.ofResult, pure_bind] at run
    obtain ⟨schema, _, ran, run⟩ := Walk.run_bind_ok.mp run
    obtain ⟨rfl, rfl⟩ := Walk.run_pure_ok.mp run
    obtain ⟨named, type, rest, typed, locates, read⟩ := DeclaredParameter.heading_ok.mp headed
    have noInput : (compiler.setting mode).inputName? spec = none := by
      cases input : (compiler.setting mode).inputName? spec with
      | none => rfl
      | some name =>
        obtain ⟨required, nullable, entry, rfl, classified⟩ := Setting.inputName?_eq_some.mp input
        obtain ⟨failed, refused⟩ := staged.input built classified
        cases ran.symm.trans refused
    have call := compile_unmarked built staged (.inl begun) read noInput
    rw [ran] at call
    have alone : compiler.parameterAlone mode parameter =
        .ok (parameter.record (location, spec, name) (.single schema)) := by
      have own : compiler.compileAlone mode spec = .ok (.single schema) := by
        simp only [compileAlone, noInput, call.2.1]
      simp only [parameterAlone, headed, bind, Except.bind, own]
      rfl
    have describes : compiler.Describes mode parameter spec (parameter.record (location, spec, name) schema) :=
      ⟨⟨type, rest, typed, locates, read⟩, named, rfl, call.2.1, rfl⟩
    refine ⟨call.1, ⟨_, alone⟩, spec, describes, fun other stands => ?_⟩
    have same := stands.setting
    have catalog : other.catalog = compiler.catalog := congrArg Setting.catalog same
    have own : other.table (other.dialect mode) = ahead.table := stands.dialect ▸ stands.own
    have again := compile_unmarked (catalog ▸ built) (same ▸ staged) (.inr own) read (same ▸ noInput)
    rw [same, ran] at again
    rw [act, again.2.2 own]
    exact stands.setTable _

/-- A parameter that fails in the middle of a call fails on its own. -/
private theorem parameterAlone_of_run {error : CompileError}
    (run : (Walk.declared (compileSpec (compiler.setting mode) []) parameter).run ahead = .error error after) :
    compiler.parameterAlone mode parameter = .error error := by
  rw [parameterAlone]
  cases headed : parameter.heading with
  | error failed =>
    rw [Walk.declared, headed] at run
    cases run
    rfl
  | ok heading =>
    obtain ⟨location, spec, name⟩ := heading
    simp only [Walk.declared, headed, Walk.ofResult, pure_bind] at run
    obtain ⟨-, type, rest, -, -, read⟩ := DeclaredParameter.heading_ok.mp headed
    have failed : (compileSpec (compiler.setting mode) [] spec).run ahead = .error error after := by
      rcases Walk.run_bind_error.mp run with failed | continued
      · exact failed
      · obtain ⟨schema, middle, -, ended⟩ := continued
        cases ended
    have refused : compiler.compileAlone mode spec = .error error := by
      unfold compileAlone
      cases input : (compiler.setting mode).inputName? spec with
      | none =>
        have call := compile_unmarked built staged (.inl begun) read input
        rw [failed] at call
        exact call
      | some name =>
        obtain ⟨required, nullable, entry, rfl, classified⟩ := Setting.inputName?_eq_some.mp input
        obtain ⟨_, met⟩ := @Setting.Staged.input _ _ built _ staged name required nullable entry classified
        cases failed.symm.trans met
        rfl
    simp only [bind, Except.bind, refused]

/-- All parameters that succeed in a call, and the calls for their references one after another. -/
private theorem describes_each {parameters : List DeclaredParameter} {records : List (ParameterRecord Schema)}
    (run : (Walk.each (Walk.declared (compileSpec (compiler.setting mode) [])) parameters).run ahead = .ok records after)
    (stands : compiler.Stands mode ahead.table other) :
    (∀ parameter ∈ parameters, ∃ answer, compiler.parameterAlone mode parameter = .ok answer) ∧
      ∃ described : List (DeclaredParameter × TypeSpec), described.map Prod.fst = parameters ∧
      List.Forall₂ (fun pair record => compiler.Describes mode pair.1 pair.2 record) described records ∧
      compiler.Stands mode after.table (other.after (described.map fun pair => .compile pair.2.unmarked mode)) := by
  induction parameters generalizing ahead other records with
  | nil =>
    obtain ⟨rfl, rfl⟩ := Walk.run_pure_ok.mp run
    exact ⟨nofun, [], rfl, .nil, stands⟩
  | cons parameter rest ih =>
    obtain ⟨record, middle, ran, run⟩ := Walk.run_bind_ok.mp run
    obtain ⟨others, last, continued, run⟩ := Walk.run_bind_ok.mp run
    obtain ⟨rfl, rfl⟩ := Walk.run_pure_ok.mp run
    obtain ⟨later, alone, spec, describes, step⟩ := describes_of_run built begun staged ran
    obtain ⟨others, described, same, all, ends⟩ := ih later continued (step other stands)
    exact ⟨List.forall_mem_cons.mpr ⟨alone, others⟩, (parameter, spec) :: described, congrArg (parameter :: ·) same,
      .cons describes all, ends⟩

/-- The first parameter that fails. -/
private theorem exists_failing {parameters : List DeclaredParameter} {error : CompileError}
    (run : (Walk.each (Walk.declared (compileSpec (compiler.setting mode) [])) parameters).run ahead =
      .error error after) :
    ∃ before failing rest, parameters = before ++ failing :: rest ∧
      (∀ earlier ∈ before, ∃ answer, compiler.parameterAlone mode earlier = .ok answer) ∧
      compiler.parameterAlone mode failing = .error error := by
  induction parameters generalizing ahead with
  | nil => cases run
  | cons parameter rest ih =>
    rcases Walk.run_bind_error.mp run with failed | continued
    · exact ⟨[], parameter, rest, rfl, nofun, parameterAlone_of_run built begun staged failed⟩
    · obtain ⟨record, middle, ran, run⟩ := continued
      obtain ⟨later, alone, -⟩ := describes_of_run built begun staged ran
      rcases Walk.run_bind_error.mp run with failed | ended
      · obtain ⟨before, failing, others, rfl, earlier, refused⟩ := ih later failed
        exact ⟨parameter :: before, failing, others, rfl, List.forall_mem_cons.mpr ⟨alone, earlier⟩, refused⟩
      · obtain ⟨_, _, -, ended⟩ := ended
        cases ended

end Steps

/-- An input type itself, or a reference to one that may be compiled on its own. -/
inductive Input (compiler : Compiler) : Referent → Entry → Prop where
  | definition {name : String} {parameters : List Parameter} :
      Input compiler (.entry (.checked (.input name parameters))) (.checked (.input name parameters))
  | written {value : Value} {name : String} {required : Bool} {entry : Entry}
      (read : TypeSpec.read false value = .ok (.named name required false))
      (classified : classify compiler.catalog compiler.registry name = .ok (.entry .input entry)) :
      Input compiler (.written value) entry

variable {given : Referent} {entry : Entry}

theorem Input.ofReferent (input : compiler.Input given entry) :
    Compiled.ofReferent (compiler.setting mode) given = Walk.ofAccess entry.declared >>= fun parameters =>
      Walk.each (Walk.declared (compileSpec (compiler.setting mode) [])) parameters >>= fun records =>
      pure (.parameters records) := by
  have same : Compiled.ofReferent (compiler.setting mode) given = Compiled.ofInput (compiler.setting mode) entry := by
    cases input with
    | definition => rfl
    | written read classified =>
      rw [Compiled.ofReferent, read]
      simp only [Walk.ofReading, pure_bind]
      rw [Compiled.ofSpec_input classified, if_neg Bool.false_ne_true]
  rw [same, Compiled.ofInput, Walk.parameters_eq, bind_assoc]

section Calls

variable (built : compiler.catalog.Registered) (input : compiler.Input given entry)

include built input

private theorem describes_of_compile {compiled : Compiled}
    (answered : (compiler.compile given mode).outcome = .ok compiled) :
    ∃ described : List (DeclaredParameter × TypeSpec), ∃ records, compiled = .parameters records ∧
      entry.declared = .ok (described.map Prod.fst) ∧
      (∀ parameter ∈ described.map Prod.fst, ∃ answer, compiler.parameterAlone mode parameter = .ok answer) ∧
      List.Forall₂ (fun pair record => compiler.Describes mode pair.1 pair.2 record) described records ∧
      ∀ dialect, (compiler.compile given mode).compiler.table dialect =
        (compiler.after (described.map fun pair => .compile pair.2.unmarked mode)).table dialect := by
  have staged := @Setting.Staged.begin (compiler.setting mode) (compiler.start given mode) rfl
  have stands : compiler.Stands mode (compiler.start given mode).table compiler := ⟨rfl, rfl, fun _ _ => rfl⟩
  obtain ⟨progress, run, same⟩ := compile_ok answered
  rw [input.ofReferent] at run
  simp only [Walk.run_bind_ok, Walk.run_ofAccess_ok, Walk.run_pure_ok] at run
  obtain ⟨parameters, _, ⟨declared, rfl⟩, records, _, run, rfl, rfl⟩ := run
  obtain ⟨alone, described, rfl, all, ends⟩ := describes_each built rfl staged run stands
  refine ⟨described, records, rfl, declared, alone, all, fun dialect => ?_⟩
  rw [same]
  by_cases own : dialect = compiler.dialect mode
  · rw [own, table_setTable_self, ends.own]
  · rw [table_setTable_other compiler own, ends.others dialect own]

private theorem exists_failing_of_compile {parameters : List DeclaredParameter} {error : CompileError}
    (declared : entry.declared = .ok parameters) (failed : (compiler.compile given mode).outcome = .error error) :
    ∃ before failing rest, parameters = before ++ failing :: rest ∧
      (∀ earlier ∈ before, ∃ answer, compiler.parameterAlone mode earlier = .ok answer) ∧
      compiler.parameterAlone mode failing = .error error := by
  have staged := @Setting.Staged.begin (compiler.setting mode) (compiler.start given mode) rfl
  obtain ⟨progress, run⟩ := run_of_compile_error failed
  rw [input.ofReferent, declared] at run
  simp only [Walk.ofAccess, pure_bind] at run
  rcases Walk.run_bind_error.mp run with failed | ended
  · exact exists_failing built rfl staged failed
  · obtain ⟨_, _, -, ended⟩ := ended
    cases ended

end Calls

/-- Whatever was done before, an input type is compiled to one record for each of its parameters, in order. A
record says the name, the location and whether the parameter is required as its type says them, and its schema
is what the same compiler answers for the reference alone; and the table is left as by these calls one after
another. If a parameter fails on its own, so does the call, with the error of the first one that fails, and the
compiler is left as it was. -/
theorem parameters_compile_pointwise (catalog : Catalog) (registry : Registry) (mode : Mode) (base? : Option String)
    (history : List Action) (registered : catalog.Registered) :
    let compiler := (new catalog registry mode base?).after history
    ∀ given entry called, compiler.Input given entry →
      let call := compiler.compile given called
      (∀ compiled, call.outcome = .ok compiled → ∃ described records, compiled = .parameters records ∧
        entry.declared = .ok (described.map Prod.fst) ∧
        List.Forall₂ (fun (parameter, spec) record => compiler.Describes called parameter spec record) described records ∧
        ∀ dialect, call.compiler.table dialect =
          (compiler.after (described.map fun (_, spec) => .compile spec.unmarked called)).table dialect) ∧
      ∀ parameters, entry.declared = .ok parameters →
        ((∃ parameter ∈ parameters, ∃ error, compiler.parameterAlone called parameter = .error error) →
          ∃ before failing rest error, parameters = before ++ failing :: rest ∧
            (∀ parameter ∈ before, ∃ answer, compiler.parameterAlone called parameter = .ok answer) ∧
            compiler.parameterAlone called failing = .error error ∧
            call.outcome = .error error ∧ call.compiler = compiler) ∧
        ((∀ parameter ∈ parameters, ∃ answer, compiler.parameterAlone called parameter = .ok answer) →
          ∃ records, call.outcome = .ok (.parameters records)) := by
  intro compiler given entry called input call
  have built : compiler.catalog.Registered := after_registered registered history
  refine ⟨fun compiled answered => ?_, fun parameters declared => ⟨fun fails => ?_, fun succeed => ?_⟩⟩
  · obtain ⟨described, records, same, declared, -, all, tables⟩ := describes_of_compile built input answered
    exact ⟨described, records, same, declared, all, tables⟩
  · obtain ⟨parameter, member, error, refused⟩ := fails
    cases outcome : call.outcome with
    | ok compiled =>
      obtain ⟨described, _, -, again, alone, -⟩ := describes_of_compile built input outcome
      cases declared.symm.trans again
      obtain ⟨answer, answered⟩ := alone parameter member
      cases refused.symm.trans answered
    | error first =>
      obtain ⟨before, failing, rest, same, earlier, refused⟩ := exists_failing_of_compile built input declared outcome
      exact ⟨before, failing, rest, first, same, earlier, refused, rfl, compile_error outcome⟩
  · cases outcome : call.outcome with
    | ok compiled =>
      obtain ⟨_, records, rfl, -⟩ := describes_of_compile built input outcome
      exact ⟨records, rfl⟩
    | error error =>
      obtain ⟨before, failing, rest, rfl, -, refused⟩ := exists_failing_of_compile built input declared outcome
      obtain ⟨answer, answered⟩ := succeed failing (by simp)
      cases refused.symm.trans answered

/-- Two parameters that need one type, and three of which the second is found nowhere. -/
theorem parameters_compile_pointwise_of_search :
    let node : Definition := .product "Node" [⟨"next", .text "node?", none, none, none⟩] none none "application/json"
    let search : Definition :=
      .input "Search" [⟨"start", .text " path : !node", none⟩, ⟨"goals", .text "[node?]", some "any of them"⟩]
    let lost : Definition :=
      .input "Lost" [⟨"start", .text "path:node", none⟩, ⟨"from", .text "moon:node", none⟩, ⟨"to", .text "sun", none⟩]
    let history : List Action := [.registerType (some "node") (.checked node),
      .registerType (some "search") (.checked search), .registerType (some "lost") (.checked lost)]
    let compiler := (new .empty .builtins .refSchema none).after history
    let call (name : String) := compiler.compile (.written (.text name)) .refSchema
    (∃ described records, (call "search").outcome = .ok (.parameters records) ∧
      records.map (·.location) = ["path", "query"] ∧ records.map (·.required) = [true, false] ∧
      List.Forall₂ (fun (parameter, spec) record => compiler.Describes .refSchema parameter spec record)
        described records ∧
      ∀ dialect, (call "search").compiler.table dialect =
        (compiler.after (described.map fun (_, spec) => .compile spec.unmarked .refSchema)).table dialect) ∧
      Record.names ((call "search").compiler.schemasFor .refSchema) = ["Node"] ∧
      (call "lost").outcome.toOption.isNone = true ∧ (call "lost").compiler = compiler := by
  intro node search lost history compiler call
  have pointwise := parameters_compile_pointwise .empty .builtins .refSchema none history .empty
  have searches : compiler.Input (.written (.text "search")) (.checked search) :=
    @Input.written compiler _ "search" false _ (toOption_eq_some.mp (by decide +kernel)) rfl
  have loses : compiler.Input (.written (.text "lost")) (.checked lost) :=
    @Input.written compiler _ "lost" false _ (toOption_eq_some.mp (by decide +kernel)) rfl
  have answered : ((call "search").outcome.toOption.bind Compiled.records?).map (fun records =>
      (records.map (·.location), records.map (·.required))) = some (["path", "query"], [true, false]) := by
    decide +kernel
  obtain ⟨found, answer, same⟩ := Option.map_eq_some_iff.mp answered
  obtain ⟨compiled, outcome, parameters⟩ := Option.bind_eq_some_iff.mp answer
  have outcome := toOption_eq_some.mp outcome
  obtain ⟨described, records, rfl, -, all, tables⟩ := (pointwise _ _ .refSchema searches).1 compiled outcome
  cases parameters
  obtain ⟨located, required⟩ := Prod.mk.inj same
  have fails : ∃ parameter ∈ [⟨"start", .text "path:node", none⟩, ⟨"from", .text "moon:node", none⟩,
      ⟨"to", .text "sun", none⟩].map DeclaredParameter.ofParameter,
      ∃ error, compiler.parameterAlone .refSchema parameter = .error error :=
    ⟨_, List.mem_cons_of_mem _ List.mem_cons_self, _, rfl⟩
  obtain ⟨-, -, -, error, -, -, -, failed, unchanged⟩ := ((pointwise _ _ .refSchema loses).2 _ rfl).1 fails
  refine ⟨⟨described, found, outcome, located, required, all, tables⟩, by decide +kernel, ?_, unchanged⟩
  rw [failed]
  rfl

end Compiler

end Schemata
