import Schemata.Proofs.Locality
import Schemata.Proofs.RebasedWalks

/-! What a mode is to a compiler. It says whether types are hoisted, how null is admitted and what references
start with, and its bits are not looked at for anything else. So modes that agree on the first two differ in
the base alone, and modes that agree on all three can be exchanged at any time. -/

namespace Schemata

structure Mode.Resembles (mode other : Mode) : Prop where
  hoisting : other.isHoisting = mode.isHoisting
  flagged : other.isFlagged = mode.isFlagged

structure Mode.Interchanges (base? : Option String) (mode other : Mode) : Prop where
  resembles : mode.Resembles other
  base : (Dialect.of base? other).base = (Dialect.of base? mode).base

theorem Mode.Interchanges.dialect {base? : Option String} {mode other : Mode} (interchanges : mode.Interchanges base? other) :
    Dialect.of base? other = Dialect.of base? mode := by
  change Dialect.mk (Dialect.of base? other).base other.isFlagged = ⟨(Dialect.of base? mode).base, mode.isFlagged⟩
  rw [interchanges.base, interchanges.resembles.flagged]

inductive Action.Exchanges (base? : Option String) : Action → Action → Prop where
  | compile (given : Referent) {mode other : Mode} (modes : mode.Interchanges base? other) :
      Exchanges base? (.compile given mode) (.compile given other)
  | compileParameters (given : Referent) {mode other : Mode} (modes : mode.Interchanges base? other) :
      Exchanges base? (.compileParameters given mode) (.compileParameters given other)
  | registerType (identifier : Option String) (entry : Entry) :
      Exchanges base? (.registerType identifier entry) (.registerType identifier entry)
  | registerPrimitive (name : String) (fragment : Value) :
      Exchanges base? (.registerPrimitive name fragment) (.registerPrimitive name fragment)

namespace Compiler

variable {compiler : Compiler} {given : Referent} {mode other called : Mode}

theorem compile_exchanged (interchanges : mode.Interchanges compiler.base? other) (given : Referent) :
    (compiler.compile given other).outcome = (compiler.compile given mode).outcome ∧
      (compiler.compile given other).compiler = (compiler.compile given mode).compiler := by
  have dialect : compiler.dialect other = compiler.dialect mode := interchanges.dialect
  have setting : compiler.setting other = compiler.setting mode := by
    rw [Compiler.setting, Compiler.setting, dialect, interchanges.resembles.hoisting]
  -- the two calls begin with different lines in the log
  have agrees := (Setting.Resembles.refl (compiler.setting mode)).agrees_ofReferent
    fun name (_ : compiler.catalog.Consults compiler.registry given name) => rfl
  have begins : Walk.Matches Eq (compiler.start given mode) (compiler.start given other) :=
    ⟨congrArg compiler.table dialect.symm, rfl⟩
  have alike := agrees _ _ begins
  rw [compile_eq, compile_eq, setting, dialect]
  generalize (Compiled.ofReferent (compiler.setting mode) given).run (compiler.start given mode) = here at alike
  generalize (Compiled.ofReferent (compiler.setting mode) given).run (compiler.start given other) = there at alike
  cases alike with
  | ok matched => exact ⟨rfl, congrArg (compiler.setTable _) matched.1.symm⟩
  | error => exact ⟨rfl, rfl⟩

theorem act_exchanged {action twin : Action} (exchanges : action.Exchanges compiler.base? twin) :
    compiler.answer twin = compiler.answer action ∧ compiler.act twin = compiler.act action := by
  cases exchanges with
  | registerType | registerPrimitive => exact ⟨rfl, rfl⟩
  | compile given modes =>
    obtain ⟨outcome, after⟩ := compile_exchanged modes given
    exact ⟨congrArg Answer.call outcome, after⟩
  | compileParameters given modes =>
    obtain ⟨outcome, after⟩ := compile_exchanged modes given
    simp only [answer, act, compileParameters]
    split
    next => exact ⟨rfl, rfl⟩
    next => exact ⟨congrArg Answer.call outcome, after⟩

theorem after_exchanged {base? : Option String} {actions others : List Action} (own : compiler.base? = base?)
    (exchanges : List.Forall₂ (Action.Exchanges base?) actions others) :
    compiler.answers others = compiler.answers actions ∧ compiler.after others = compiler.after actions := by
  induction exchanges generalizing compiler with
  | nil => exact ⟨rfl, rfl⟩
  | @cons action twin rest restToo first _ ih =>
    subst own
    obtain ⟨answer, act⟩ := act_exchanged first
    obtain ⟨answers, after⟩ := @ih (compiler.act action) (compiler.after_base? [action])
    refine ⟨?_, ?_⟩
    · rw [Compiler.answers, Compiler.answers, answer, act, answers]
    · change (compiler.act twin).after restToo = (compiler.act action).after rest
      rw [act, after]

theorem schemasFor_setTable (compiler : Compiler) (mode : Mode) (table : Table) :
    (compiler.setTable (compiler.dialect mode) table).schemasFor mode = table :=
  compiler.table_setTable_self (compiler.dialect mode) table

theorem schemasFor_compile (compiler : Compiler) (given : Referent) (mode other : Mode) :
    (compiler.compile given mode).compiler.schemasFor other =
      (compiler.compile given mode).compiler.table (compiler.dialect other) := by
  have base : (compiler.compile given mode).compiler.base? = compiler.base? :=
    compiler.after_base? [.compile given mode]
  rw [schemasFor, Compiler.dialect, base]
  rfl

/-- On a compiler that has compiled nothing, a call in another mode that resembles the first answers the
same and leaves the same table, but for the base. -/
theorem compile_rebased (resembles : mode.Resembles other) (fresh : compiler.tables = []) (given : Referent) :
    let base := (compiler.dialect other).base
    let call := compiler.compile given mode
    let twin := compiler.compile given other
    twin.outcome = call.outcome.map (Compiled.rebase base) ∧
      List.Forall₂ (Record.Pairs fun _ => Schema.Restates base compiler.catalog) (call.compiler.schemasFor mode)
        (twin.compiler.schemasFor other) := by
  intro base call twin
  have setting : compiler.setting other = (compiler.setting mode).rebased base := by
    change Setting.mk _ _ (Dialect.mk base other.isFlagged) other.isHoisting = ⟨_, _, ⟨base, mode.isFlagged⟩, _⟩
    rw [resembles.hoisting, resembles.flagged]
    rfl
  have empty (dialect : Dialect) : compiler.table dialect = [] := by
    rw [Compiler.table, fresh]
    rfl
  have begins : Progress.Restates (compiler.setting mode) base (compiler.start given mode)
      (compiler.start given other) := by
    refine ⟨?_, rfl, by simp [start]⟩
    rw [start, start, empty, empty]
    exact .nil
  have parallel := Setting.rebases_ofReferent given _ _ begins
  simp only [call, twin, compile_eq, setting]
  generalize (Compiled.ofReferent (compiler.setting mode) given).run _ = here at parallel
  generalize (Compiled.ofReferent ((compiler.setting mode).rebased base) given).run _ = there at parallel
  cases parallel with
  | ok near turns =>
    obtain ⟨rfl, -⟩ := turns
    refine ⟨rfl, ?_⟩
    rw [schemasFor_setTable, schemasFor_setTable]
    exact near.table
  | error =>
    refine ⟨rfl, ?_⟩
    simp only [schemasFor, empty]
    exact .nil

/-- A mode is any mode that resembles it, on a compiler that is told the base of the first. -/
theorem compile_based (catalog : Catalog) (registry : Registry) (base? : Option String) (resembles : mode.Resembles other)
    (given : Referent) :
    let twin := (new catalog registry called base?).compile given other
    let based := (new catalog registry called (some (Dialect.of base? other).base)).compile given mode
    twin.outcome = based.outcome ∧ twin.compiler.schemasFor other = based.compiler.schemasFor mode := by
  intro twin based
  have setting : (new catalog registry called base?).setting other =
      (new catalog registry called (some (Dialect.of base? other).base)).setting mode := by
    change Setting.mk _ _ (Dialect.mk _ other.isFlagged) other.isHoisting = ⟨_, _, ⟨_, mode.isFlagged⟩, _⟩
    rw [resembles.hoisting, resembles.flagged]
    rfl
  have agrees : Walk.Agrees (Walk.Matches Eq)
      (Compiled.ofReferent ((new catalog registry called (some (Dialect.of base? other).base)).setting mode) given)
      (Compiled.ofReferent ((new catalog registry called base?).setting other) given) := by
    rw [setting]
    exact (Setting.Resembles.refl _).agrees_ofReferent fun _ _ => rfl
  rw [schemasFor_compile, schemasFor_compile]
  exact compile_agrees rfl agrees

/-- Modes that hoist alike and admit null alike answer the same and leave the same table, but for the base of
references; and a mode is any mode that resembles it, on a compiler that is told its base. With one base such
modes can be exchanged in every call. -/
theorem modes_exchange (catalog : Catalog) (registry : Registry) (mode : Mode) (base? : Option String) (one other : Mode)
    (resembles : one.Resembles other) :
    let fresh := new catalog registry mode base?
    let base := (Dialect.of base? other).base
    (∀ given,
      let call := fresh.compile given one
      let twin := fresh.compile given other
      let based := (new catalog registry mode (some base)).compile given one
      twin.outcome = call.outcome.map (Compiled.rebase base) ∧
        List.Forall₂ (Record.Pairs fun _ => Schema.Restates base catalog) (call.compiler.schemasFor one)
          (twin.compiler.schemasFor other) ∧
        ((∀ shape, .handwritten shape ∉ catalog.toList) →
          twin.compiler.schemasFor other =
            (call.compiler.schemasFor one).map fun (name, body) => (name, body.rebase base)) ∧
        twin.outcome = based.outcome ∧ twin.compiler.schemasFor other = based.compiler.schemasFor one) ∧
    ∀ actions others, List.Forall₂ (Action.Exchanges base?) actions others →
      fresh.answers others = fresh.answers actions ∧ fresh.after others = fresh.after actions := by
  intro fresh base
  refine ⟨fun given => ?_, fun actions others exchanges => after_exchanged rfl exchanges⟩
  intro call twin based
  obtain ⟨outcome, tables⟩ := compile_rebased resembles (show fresh.tables = [] from rfl) given
  exact ⟨outcome, tables, fun checked => Record.eq_rebase checked tables, compile_based catalog registry base? resembles given⟩

/-- A type that contains itself, in JSON Schema and in OpenAPI 3.1, the latter with a bit that means nothing. -/
theorem modes_exchange_of_node :
    let node : Definition := .product "Node" [⟨"next", .text "node?", none, none, none⟩] none none "application/json"
    let catalog : Catalog := ⟨[("node", .checked node)], [(.text "Node", "node")]⟩
    let plain := Mode.jsonSchema.union .refSchema
    let later : Mode := ⟨64 + 8 + 4⟩
    let call (base? : Option String) := (new catalog .builtins .jsonSchema base?).compile (.written (.text "[node?]"))
    let told := new catalog .builtins .jsonSchema (some "#/types/")
    let write (mode : Mode) : Action := .compile (.written (.text "node")) mode
    (Dialect.of none later).base = Dialect.openApiBase ∧ (Dialect.of none plain).base = Dialect.jsonSchemaBase ∧
      Record.names ((call none plain).compiler.schemasFor plain) = ["Node"] ∧
      (call none later).outcome = (call none plain).outcome.map (Compiled.rebase Dialect.openApiBase) ∧
      (call none later).compiler.schemasFor later =
        ((call none plain).compiler.schemasFor plain).map (fun (name, body) => (name, body.rebase Dialect.openApiBase)) ∧
      (call none .openApi31).outcome = (call (some Dialect.openApiBase) .jsonSchema).outcome ∧
      told.answers [write plain, write later] = told.answers [write later, write plain] := by
  intro node catalog plain later call told write
  have checked (shape : Shape) : .handwritten shape ∉ catalog.toList := by
    simp [Catalog.toList, catalog]
  have base : (Dialect.of none later).base = Dialect.openApiBase := by decide
  have resembles : plain.Resembles later := ⟨by decide, by decide⟩
  have hoisted := (modes_exchange catalog .builtins .jsonSchema none plain later resembles).1 (.written (.text "[node?]"))
  have inline := (modes_exchange catalog .builtins .jsonSchema none .jsonSchema .openApi31 ⟨by decide, by decide⟩).1
    (.written (.text "[node?]"))
  have forth : plain.Interchanges (some "#/types/") later := ⟨resembles, rfl⟩
  have back : later.Interchanges (some "#/types/") plain := ⟨⟨by decide, by decide⟩, rfl⟩
  have exchanged := (modes_exchange catalog .builtins .jsonSchema (some "#/types/") plain later resembles).2
    [write later, write plain] [write plain, write later] (.cons (.compile _ back) (.cons (.compile _ forth) .nil))
  rw [base] at hoisted
  exact ⟨base, by decide, by decide +kernel, hoisted.1, hoisted.2.2.1 checked, inline.2.2.2.1, exchanged.1⟩

end Compiler

end Schemata
