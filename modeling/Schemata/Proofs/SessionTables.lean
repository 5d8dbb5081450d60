import Schemata.Proofs.TableGrowth

/-! The tables of a compiler during a session. A call that fails changes nothing; a call that
succeeds appends to the table of its own dialect. So a stored schema stays what it is, and calls
that fail could as well have been left out. -/

namespace Schemata

namespace Compiler

theorem lookup_filter_ne {dialect other : Dialect} (different : other ≠ dialect) (tables : List (Dialect × Table)) :
    (tables.filter fun (known, _) => known ≠ dialect).lookup other = tables.lookup other := by
  induction tables with
  | nil => rfl
  | cons head rest ih =>
    obtain ⟨known, table⟩ := head
    by_cases same : known = dialect
    · have apart : (other == known) = false := beq_false_of_ne (same ▸ different)
      rw [List.filter_cons_of_neg (by simpa using same), List.lookup_cons, apart, ih]
    · rw [List.filter_cons_of_pos (by simpa using same), List.lookup_cons, List.lookup_cons, ih]

@[simp] theorem table_setTable_self (compiler : Compiler) (dialect : Dialect) (table : Table) :
    (compiler.setTable dialect table).table dialect = table := by
  simp [setTable, Compiler.table]

theorem table_setTable_other (compiler : Compiler) {dialect other : Dialect} (different : other ≠ dialect)
    (table : Table) : (compiler.setTable dialect table).table other = compiler.table other := by
  have apart : (other == dialect) = false := beq_false_of_ne different
  simp only [setTable, Compiler.table, List.lookup_cons, apart, lookup_filter_ne different]

def start (compiler : Compiler) (given : Referent) (mode : Mode) : Progress :=
  { table := compiler.table (compiler.dialect mode), known := [], events := [.compiling given mode] }

variable {compiler : Compiler} {given : Referent} {mode : Mode}

theorem compile_eq (compiler : Compiler) (given : Referent) (mode : Mode) :
    compiler.compile given mode =
      match (Compiled.ofReferent (compiler.setting mode) given).run (compiler.start given mode) with
      | .ok compiled progress =>
        { outcome := .ok compiled, compiler := compiler.setTable (compiler.dialect mode) progress.table
          events := progress.events.reverse }
      | .error error progress => { outcome := .error error, compiler, events := progress.events.reverse } :=
  rfl

theorem compile_ok {compiled : Compiled} (answered : (compiler.compile given mode).outcome = .ok compiled) :
    ∃ progress, (Compiled.ofReferent (compiler.setting mode) given).run (compiler.start given mode) =
        .ok compiled progress ∧
      (compiler.compile given mode).compiler = compiler.setTable (compiler.dialect mode) progress.table := by
  rw [compile_eq] at answered ⊢
  split at answered
  next value progress run =>
    cases answered
    exact ⟨progress, run, rfl⟩
  next => cases answered

theorem compile_error {error : CompileError} (failed : (compiler.compile given mode).outcome = .error error) :
    (compiler.compile given mode).compiler = compiler := by
  rw [compile_eq] at failed ⊢
  split at failed
  next => cases failed
  next => rfl

theorem run_of_compile_error {error : CompileError} (failed : (compiler.compile given mode).outcome = .error error) :
    ∃ progress, (Compiled.ofReferent (compiler.setting mode) given).run (compiler.start given mode) =
      .error error progress := by
  rw [compile_eq] at failed
  split at failed
  next => cases failed
  next other progress run =>
    cases failed
    exact ⟨progress, run⟩

/-- What an action can answer, and what it makes of the compiler. Both sorts of calls are
compilations if they succeed. -/
inductive Step (compiler : Compiler) : Action → Answer → Compiler → Prop where
  | failed {action given mode error} (call : action.call? = some (given, mode)) :
      Step compiler action (.call (.error error)) compiler
  | answered {action given mode compiled} (call : action.call? = some (given, mode))
      (succeeded : (compiler.compile given mode).outcome = .ok compiled) :
      Step compiler action (.call (.ok compiled)) (compiler.compile given mode).compiler
  | registered {identifier entry catalog} (accepted : compiler.catalog.register identifier entry = .ok catalog) :
      Step compiler (.registerType identifier entry) (.registration (.ok ())) { compiler with catalog }
  | refused {identifier entry error} (refused : compiler.catalog.register identifier entry = .error error) :
      Step compiler (.registerType identifier entry) (.registration (.error error)) compiler
  | primitive {name fragment} : Step compiler (.registerPrimitive name fragment) (.registration (.ok ()))
      { compiler with registry := compiler.registry.register name fragment }

private theorem step_compile {action : Action} (call : action.call? = some (given, mode)) :
    Step compiler action (.call (compiler.compile given mode).outcome) (compiler.compile given mode).compiler := by
  cases outcome : (compiler.compile given mode).outcome with
  | ok compiled => exact .answered call outcome
  | error error =>
    rw [compile_error outcome]
    exact .failed call

theorem step (compiler : Compiler) (action : Action) :
    Step compiler action (compiler.answer action) (compiler.act action) := by
  cases action with
  | compile given mode => exact step_compile rfl
  | compileParameters given mode =>
    simp only [answer, act, compileParameters]
    split
    next => exact .failed rfl
    next => exact step_compile rfl
  | registerType identifier entry =>
    simp only [answer, act]
    cases registered : compiler.catalog.register identifier entry with
    | ok catalog => exact .registered registered
    | error error => exact .refused registered
  | registerPrimitive name fragment => exact .primitive

theorem answered_call {action : Action} {compiled : Compiled} (call : action.call? = some (given, mode))
    (answered : compiler.answer action = .call (.ok compiled)) :
    (compiler.compile given mode).outcome = .ok compiled ∧
      compiler.act action = (compiler.compile given mode).compiler := by
  have taken := compiler.step action
  rw [answered] at taken
  generalize compiler.act action = after at taken ⊢
  cases taken with
  | answered again succeeded =>
    cases call.symm.trans again
    exact ⟨succeeded, rfl⟩

theorem failed_call {action : Action} {error : CompileError} (failed : compiler.answer action = .call (.error error)) :
    compiler.act action = compiler := by
  have taken := compiler.step action
  rw [failed] at taken
  generalize compiler.act action = after at taken ⊢
  cases taken
  rfl

/-- What every action keeps holds whatever was done. -/
theorem after_induction {property : Compiler → Prop} {actions : List Action}
    (step : ∀ compiler, ∀ action ∈ actions, property compiler → property (compiler.act action))
    (begins : property compiler) : property (compiler.after actions) := by
  induction actions generalizing compiler with
  | nil => exact begins
  | cons action rest ih =>
    exact ih (fun _ later member => step _ later (List.mem_cons_of_mem _ member)) (step _ action List.mem_cons_self begins)

/-- What references start with is settled when a compiler is made. -/
theorem after_base? (compiler : Compiler) (actions : List Action) :
    (compiler.after actions).base? = compiler.base? := by
  refine after_induction (fun other action _ (same : other.base? = compiler.base?) => ?_) rfl
  rw [← same]
  have taken := other.step action
  generalize other.act action = after at taken ⊢
  generalize other.answer action = answer at taken
  cases taken with
  | failed | refused | registered | primitive => rfl
  | answered call succeeded =>
    obtain ⟨progress, -, kept⟩ := compile_ok succeeded
    rw [kept]
    rfl

structure Appends (before after : Compiler) (mode : Mode) : Prop where
  others : ∀ dialect, dialect ≠ before.dialect mode → after.table dialect = before.table dialect
  appended : ∃ added, after.table (before.dialect mode) = before.table (before.dialect mode) ++ added ∧
    (Record.names added).Nodup ∧ ∀ name ∈ Record.names added, name ∉ Record.names (before.table (before.dialect mode))
  unhoisted : mode.isHoisting = false → after.table (before.dialect mode) = before.table (before.dialect mode)

theorem compile_appends {compiled : Compiled} (answered : (compiler.compile given mode).outcome = .ok compiled) :
    compiler.Appends (compiler.compile given mode).compiler mode := by
  obtain ⟨progress, run, same⟩ := compile_ok answered
  obtain ⟨-, ⟨added, grown, unique, new, none⟩, -⟩ := (compiler.setting mode).growth.ensures_ofReferent given
    (Discipline.receives_of_admits _ (fun _ => trivial) fun _ _ => trivial) _ _ _ trivial run
  rw [same]
  refine ⟨fun dialect different => table_setTable_other _ different _, ⟨added, ?_, unique, ?_⟩, fun inline => ?_⟩
  · rw [table_setTable_self, grown]
    rfl
  · exact fun name member => (new name member).1
  · rw [table_setTable_self, grown, none inline]
    simp [start]

/-- What holds of every table still does after a call, if it does of the one into which types are hoisted. -/
theorem compile_tables {property : Dialect → Table → Prop} {compiled : Compiled}
    (answered : (compiler.compile given mode).outcome = .ok compiled)
    (before : ∀ dialect, property dialect (compiler.table dialect))
    (hoisted : mode.isHoisting = true →
      property (compiler.dialect mode) ((compiler.compile given mode).compiler.table (compiler.dialect mode)))
    (dialect : Dialect) : property dialect ((compiler.compile given mode).compiler.table dialect) := by
  have appends := compile_appends answered
  by_cases own : dialect = compiler.dialect mode
  · subst own
    cases hoists : mode.isHoisting with
    | true => exact hoisted hoists
    | false =>
      rw [appends.unhoisted hoists]
      exact before _
  · rw [appends.others dialect own]
    exact before dialect

def Unrepeated (compiler : Compiler) : Prop := ∀ dialect, (Record.names (compiler.table dialect)).Nodup

theorem Appends.unrepeated {before after : Compiler} (appends : before.Appends after mode)
    (unique : before.Unrepeated) : after.Unrepeated := by
  intro dialect
  by_cases same : dialect = before.dialect mode
  · obtain ⟨added, grown, addedUnique, new⟩ := appends.appended
    rw [same, grown, Record.names_append]
    exact (unique _).append addedUnique fun name one other => new name other one
  · rw [appends.others dialect same]
    exact unique dialect

/-- One action, whatever it is, leaves every table at the front of the later one. -/
theorem act_appends (compiler : Compiler) (action : Action) :
    (∀ dialect, compiler.table dialect <+: (compiler.act action).table dialect) ∧
      (compiler.Unrepeated → (compiler.act action).Unrepeated) := by
  have taken := compiler.step action
  generalize compiler.act action = after at taken ⊢
  generalize compiler.answer action = answer at taken
  cases taken with
  | failed | refused | registered | primitive => exact ⟨fun _ => List.prefix_refl _, id⟩
  | @answered _ given mode _ call succeeded =>
    have appends := compile_appends succeeded
    refine ⟨fun dialect => ?_, appends.unrepeated⟩
    by_cases own : dialect = compiler.dialect mode
    · obtain ⟨added, grown, -⟩ := appends.appended
      rw [own, grown]
      exact List.prefix_append _ _
    · exact (appends.others dialect own).symm ▸ List.prefix_refl _

theorem after_appends (compiler : Compiler) (actions : List Action) :
    (∀ dialect, compiler.table dialect <+: (compiler.after actions).table dialect) ∧
      (compiler.Unrepeated → (compiler.after actions).Unrepeated) := by
  induction actions generalizing compiler with
  | nil => exact ⟨fun _ => List.prefix_refl _, id⟩
  | cons action rest ih =>
    obtain ⟨first, kept⟩ := act_appends compiler action
    obtain ⟨later, keptLater⟩ := ih (compiler.act action)
    exact ⟨fun dialect => (first dialect).trans (later dialect), fun unique => keptLater (kept unique)⟩

theorem new_unrepeated (catalog : Catalog) (registry : Registry) (mode : Mode) (base? : Option String) :
    (Compiler.new catalog registry mode base?).Unrepeated := by
  intro dialect
  simp [new, Compiler.table, Record.names]

theorem find?_of_grown {first second : Table} (front : first <+: second) {name : String} {body : Schema}
    (found : Record.find? first name = some body) : Record.find? second name = some body := by
  obtain ⟨added, rfl⟩ := front
  exact Record.find?_append found

theorem act_of_isFailure {action : Action} (failed : (compiler.answer action).isFailure = true) :
    compiler.act action = compiler := by
  have taken := compiler.step action
  generalize compiler.act action = after at taken ⊢
  generalize compiler.answer action = answer at taken failed
  cases taken with
  | failed => rfl
  | answered | registered | refused | primitive => cases failed

theorem after_withoutFailures (compiler : Compiler) (actions : List Action) :
    compiler.after (compiler.withoutFailures actions) = compiler.after actions ∧
      compiler.answers (compiler.withoutFailures actions) =
        (compiler.answers actions).filter fun answer => !answer.isFailure := by
  induction actions generalizing compiler with
  | nil => exact ⟨rfl, rfl⟩
  | cons action rest ih =>
    obtain ⟨same, answers⟩ := ih (compiler.act action)
    by_cases failed : (compiler.answer action).isFailure = true
    · simp only [withoutFailures, failed, if_true]
      have unchanged := act_of_isFailure failed
      rw [unchanged] at same answers ⊢
      refine ⟨same.trans ?_, answers.trans ?_⟩
      · rw [after, after, List.foldl_cons, unchanged]
      · simp only [Compiler.answers, unchanged, List.filter_cons, failed, Bool.not_true, Bool.false_eq_true, if_false]
    · simp only [withoutFailures, failed, Bool.false_eq_true, if_false]
      refine ⟨same, ?_⟩
      simp only [Compiler.answers, List.filter_cons, failed, Bool.not_false, if_true, answers]

/-- A session may have done anything before. A call that fails leaves all tables as they were, and
one that succeeds only appends new names to the table of its dialect. Later calls never see whether
the failing ones were made. -/
theorem tables_append_only (catalog : Catalog) (registry : Registry) (mode : Mode) (base? : Option String)
    (history : List Action) :
    let compiler := (Compiler.new catalog registry mode base?).after history
    (∀ action error, compiler.answer action = .call (.error error) →
      ∀ dialect, (compiler.act action).table dialect = compiler.table dialect) ∧
    (∀ action given mode compiled, action.call? = some (given, mode) →
      compiler.answer action = .call (.ok compiled) →
      compiler.Appends (compiler.act action) mode ∧ (compiler.act action).Unrepeated) ∧
    (∀ later, compiler.after (compiler.withoutFailures later) = compiler.after later ∧
      compiler.answers (compiler.withoutFailures later) =
        (compiler.answers later).filter fun answer => !answer.isFailure) ∧
    (∀ later dialect name body, Record.find? (compiler.table dialect) name = some body →
      Record.find? ((compiler.after later).table dialect) name = some body) := by
  intro compiler
  have unique : compiler.Unrepeated := (after_appends _ history).2 (new_unrepeated catalog registry mode base?)
  refine ⟨?_, ?_, after_withoutFailures compiler, ?_⟩
  · intro action error failed dialect
    rw [failed_call failed]
  · intro action given mode compiled call answered
    obtain ⟨succeeded, same⟩ := answered_call call answered
    rw [same]
    exact ⟨compile_appends succeeded, (compile_appends succeeded).unrepeated unique⟩
  · intro later dialect name body found
    exact find?_of_grown ((after_appends compiler later).1 dialect) found

end Compiler

end Schemata
