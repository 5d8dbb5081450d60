import Schemata.Definition.Check
import Schemata.Proofs.CompileErrors
import Schemata.Proofs.DefinitionGraph

/-! Which errors a compilation can end in. Those that are declared are about references: how they are written, what
they stand for and where they lead. Three more come from data that nobody looked at before: a list that holds itself
where a reference is read, a reference that is none and that no message can quote, and alternatives that cannot be
gone through where null is to be one of them. -/

namespace Schemata

theorem CompileError.ofMisreading_endless {misreading : Misreading} (endless : misreading.fault = .endless) :
    ofMisreading misreading = .unusable .endless := by
  rw [ofMisreading, endless]

theorem CompileError.ofMisreading_invalid {misreading : Misreading} (other : misreading.fault ≠ .endless) :
    ofMisreading misreading = .invalidReference (.written misreading.given) misreading.fault := by
  unfold ofMisreading
  split
  next endless => exact absurd endless other
  next => rfl

/-- A misreading is reported unless a list holds itself or a number has too many digits to be quoted. -/
theorem CompileError.isReported_ofMisreading {misreading : Misreading} :
    (ofMisreading misreading).IsReported ↔ misreading.fault ≠ .endless ∧ misreading.given.isWritable = true := by
  by_cases endless : misreading.fault = .endless
  · rw [ofMisreading_endless endless]
    exact ⟨False.elim, fun both => both.1 endless⟩
  · rw [ofMisreading_invalid endless]
    exact ⟨fun quotable => ⟨endless, quotable⟩, And.right⟩

/-- Nothing says the type of the fragment, and its alternatives are nothing that can be gone through. -/
def Value.LacksAlternatives (fragment : Record Value) : Prop :=
  Record.has fragment "type" = false ∧
    ∃ alternatives, Record.find? fragment "oneOf" = some alternatives ∧ alternatives.members? = none

/-- The reference inside all brackets. -/
def TypeSpec.innermost : TypeSpec → TypeSpec
  | .named name required nullable => .named name required nullable
  | .array element _ _ => element.innermost

/-- Only missing alternatives keep null from being admitted to an object taken over as it was given. -/
theorem Schema.nullable?_ofRecord_error {fragment : Record Value} {flagged : Bool} {fault : Fault} :
    (ofRecord fragment).nullable? flagged = .error fault ↔ fault = .unsuitable ∧ Value.LacksAlternatives fragment := by
  have typed : Record.has (dataParts fragment) "type" = Record.has fragment "type" := Record.has_map _ fragment "type"
  rw [ofRecord, nullable?_keywords, find?_dataParts, typed]
  cases has : Record.has fragment "type" with
  | true => cases Record.find? fragment "oneOf" <;> simp [Value.LacksAlternatives, has]
  | false =>
    cases given : Record.find? fragment "oneOf" with
    | none => simp [Value.LacksAlternatives, given]
    | some alternatives =>
      cases listed : alternatives.members? <;>
        simp [Value.LacksAlternatives, has, given, listed, addNull, partValue, Except.map, eq_comm]

/-- A name cannot be classified if nothing has it, or if what has it is of no kind. -/
theorem unknown_of_classify {catalog : Catalog} {registry : Registry} {name : String} {error : CompileError}
    (failed : classify catalog registry name = .error error) :
    error = .unknownType name ∨ ∃ label, error = .unknownKind label := by
  unfold classify at failed
  split at failed
  next => cases failed
  next =>
    split at failed
    next => cases failed; exact .inl rfl
    next entry _ =>
      cases kind : entry.kind? with
      | some kind => simp [Entry.kindOf, kind, Except.map] at failed
      | none =>
        simp only [Entry.kindOf, kind, Except.map, Except.error.injEq] at failed
        exact .inr ⟨_, failed.symm⟩

theorem isReported_of_classify {catalog : Catalog} {registry : Registry} {name : String} {error : CompileError}
    (failed : classify catalog registry name = .error error) : error.IsReported := by
  rcases unknown_of_classify failed with rfl | ⟨label, rfl⟩
  · trivial
  · trivial

def Catalog.Leads (catalog : Catalog) (registry : Registry) (spec : TypeSpec) (definition : Definition) : Prop :=
  ∃ root, catalog.Denotes registry spec root ∧ Relation.ReflTransGen (catalog.Uses registry) root definition

/-- What makes the compilation of a reference end in an error that is not declared: somewhere a list that holds itself
is to be read, or what is no reference and cannot be quoted, or null is to be admitted to a fragment that lacks
alternatives. -/
inductive Setting.Strays (setting : Setting) (spec : TypeSpec) : CompileError → Prop where
  | endless {definition : Definition} {misreading : Misreading}
      (leads : setting.catalog.Leads setting.registry spec definition) (reads : definition.Reads (.error misreading))
      (endless : misreading.fault = .endless) : Strays setting spec (.unusable .endless)
  | unquotable {definition : Definition} {misreading : Misreading}
      (leads : setting.catalog.Leads setting.registry spec definition) (reads : definition.Reads (.error misreading))
      (other : misreading.fault ≠ .endless) (long : misreading.given.isWritable = false) :
      Strays setting spec (.invalidReference (.written misreading.given) misreading.fault)
  | alternatives {other : TypeSpec} {name : String} {required : Bool} {fragment : Record Value}
      (met : other = spec ∨
        ∃ definition, setting.catalog.Leads setting.registry spec definition ∧ definition.Mentions other)
      (nullable : other.innermost = .named name required true)
      (supplies : setting.catalog.Supplies setting.registry name (.record fragment))
      (lacks : Value.LacksAlternatives fragment) : Strays setting spec (.unusable .unsuitable)

namespace Setting

variable {setting : Setting}

def Tells (setting : Setting) (spec : TypeSpec) (error : CompileError) : Prop :=
  error.IsReported ∨ setting.Strays spec error

theorem Tells.element {element : TypeSpec} {required nullable : Bool} {error : CompileError}
    (tells : setting.Tells element error) : setting.Tells (.array element required nullable) error := by
  refine tells.imp_right fun strays => ?_
  cases strays with
  | endless leads reads endless => exact .endless leads reads endless
  | unquotable leads reads other long => exact .unquotable leads reads other long
  | alternatives met nullable supplies lacks =>
    rcases met with rfl | found
    · exact .alternatives (.inl rfl) nullable supplies lacks
    · exact .alternatives (.inr found) nullable supplies lacks

theorem Tells.inside {spec other : TypeSpec} {definition : Definition} {error : CompileError}
    (denotes : setting.catalog.Denotes setting.registry spec definition) (mentions : definition.Mentions other)
    (tells : setting.Tells other error) : setting.Tells spec error := by
  have further {last : Definition} (leads : setting.catalog.Leads setting.registry other last) :
      setting.catalog.Leads setting.registry spec last := by
    obtain ⟨root, next, path⟩ := leads
    exact ⟨definition, denotes, .head ⟨other, mentions, next⟩ path⟩
  refine tells.imp_right fun strays => ?_
  cases strays with
  | endless leads reads endless => exact .endless (further leads) reads endless
  | unquotable leads reads other long => exact .unquotable (further leads) reads other long
  | alternatives met nullable supplies lacks =>
    rcases met with rfl | ⟨last, leads, mentioned⟩
    · exact .alternatives (.inr ⟨definition, ⟨definition, denotes, .refl⟩, mentions⟩) nullable supplies lacks
    · exact .alternatives (.inr ⟨last, further leads, mentioned⟩) nullable supplies lacks

theorem Tells.misread {spec : TypeSpec} {definition : Definition} {misreading : Misreading}
    (denotes : setting.catalog.Denotes setting.registry spec definition)
    (reads : definition.Reads (.error misreading)) : setting.Tells spec (.ofMisreading misreading) := by
  have leads : setting.catalog.Leads setting.registry spec definition := ⟨definition, denotes, .refl⟩
  by_cases endless : misreading.fault = .endless
  · rw [CompileError.ofMisreading_endless endless]
    exact .inr (.endless leads reads endless)
  · cases writable : misreading.given.isWritable with
    | true => exact .inl (CompileError.isReported_ofMisreading.mpr ⟨endless, writable⟩)
    | false =>
      rw [CompileError.ofMisreading_invalid endless]
      exact .inr (.unquotable leads reads endless writable)

variable (built : setting.catalog.OfDefinitions) (holds : setting.registry.HoldsObjects)

include holds in
/-- A fragment taken over can only lack alternatives. -/
theorem tells_fragment {name : String} {required nullable : Bool} {fragment : Value} {fault : Fault}
    (supplies : setting.catalog.Supplies setting.registry name fragment)
    (failed : setting.widened nullable (.ofValue fragment) = .error fault) :
    setting.Tells (.named name required nullable) (.unusable fault) := by
  obtain ⟨record, rfl⟩ := holds.supplied supplies
  rw [Schema.ofValue_record] at failed
  cases nullable with
  | false => cases failed
  | true =>
    obtain ⟨rfl, lacks⟩ := Schema.nullable?_ofRecord_error.mp failed
    exact .inr (.alternatives (.inl rfl) rfl supplies lacks)

def telling : setting.Blame where
  allowed _ := setting.Tells
  element tells := tells.element
  unclassified classified := .inl (isReported_of_classify classified)
  nested _ := .inl rfl
  fragment := tells_fragment holds
  endless _ _ _ _ := .inl trivial
  misread classified _ reads := .misread ⟨_, classified⟩ reads
  inside classified _ _ mentions tells := .inside ⟨_, classified⟩ mentions tells

/-- Why a compilation of what is written ends in an error, if that is not declared. -/
def TellsOf (setting : Setting) (value : Value) (error : CompileError) : Prop :=
  error.IsReported ∨
    (∃ misreading, TypeSpec.read false value = .error misreading ∧ error = .ofMisreading misreading ∧
      (misreading.fault = .endless ∨ misreading.given.isWritable = false)) ∨
    ∃ spec, TypeSpec.read false value = .ok spec ∧ setting.Strays spec error

theorem tells_ofReferent (value : Value) :
    ((setting.objects built holds).rules []).Raises (setting.TellsOf value)
      (Compiled.ofReferent setting (.written value)) := by
  have of_spec {spec : TypeSpec} {error : CompileError} (read : TypeSpec.read false value = .ok spec)
      (tells : setting.Tells spec error) : setting.TellsOf value error :=
    tells.imp_right fun strays => .inr ⟨spec, read, strays⟩
  refine (telling holds).raises_ofReferent built
    (fun chain spec => (setting.objects built holds).ensures_compileSpec chain spec trivial) ?_
  exact
    { misread := fun {misreading} read => by
        by_cases reported : misreading.fault ≠ .endless ∧ misreading.given.isWritable = true
        · exact .inl (CompileError.isReported_ofMisreading.mpr reported)
        · rw [not_and_or, not_not, Bool.not_eq_true] at reported
          exact .inr (.inl ⟨misreading, read, rfl, reported⟩)
      reference := fun read _ tells => of_spec read tells
      nullable := fun _ _ => .inl rfl
      parameter := fun read classified reads => of_spec read (.misread ⟨_, classified⟩ reads)
      mentioned := fun read classified mentions tells => of_spec read (.inside ⟨_, classified⟩ mentions tells) }

end Setting

/-- Only definitions are registered as types, and only objects as fragments of primitives. -/
def Action.IsModelled : Action → Prop
  | .registerType _ entry => ∃ definition, entry = .checked definition
  | .registerPrimitive _ fragment => ∃ record, fragment = .record record
  | .compile .. | .compileParameters .. => True

namespace Compiler

variable {compiler : Compiler}

structure IsModelled (compiler : Compiler) : Prop where
  built : compiler.catalog.OfDefinitions
  holds : compiler.registry.HoldsObjects

theorem IsModelled.act (modelled : compiler.IsModelled) {action : Action} (own : action.IsModelled) :
    (compiler.act action).IsModelled := by
  have taken := compiler.step action
  generalize compiler.act action = after at taken ⊢
  generalize compiler.answer action = answer at taken
  cases taken with
  | failed | refused => exact modelled
  | registered accepted =>
    obtain ⟨definition, rfl⟩ := own
    exact ⟨modelled.built.register accepted, modelled.holds⟩
  | primitive =>
    refine ⟨modelled.built, fun name fragment member => ?_⟩
    rcases Record.mem_set member with same | old
    · cases same
      exact own
    · exact modelled.holds name fragment old
  | answered call succeeded =>
    obtain ⟨progress, -, same⟩ := compile_ok succeeded
    rw [same]
    exact ⟨modelled.built, modelled.holds⟩

theorem IsModelled.after (modelled : compiler.IsModelled) {actions : List Action}
    (own : ∀ action ∈ actions, action.IsModelled) : (compiler.after actions).IsModelled :=
  after_induction (fun other action member (held : other.IsModelled) => held.act (own action member)) modelled

/-- A nullable reference to a fragment that lacks alternatives fails, however many brackets are around it. -/
theorem run_of_lacks {setting : Setting} {name : String} {required : Bool} {fragment : Record Value} {spec : TypeSpec}
    (innermost : spec.innermost = .named name required true)
    (supplies : setting.catalog.Supplies setting.registry name (.record fragment))
    (lacks : Value.LacksAlternatives fragment) {before : Progress} (fresh : before.known = []) (chain : List Name) :
    (compileSpec setting chain spec).run before = .error (.unusable .unsuitable) before := by
  have memoized (spec : TypeSpec) {walk : Walk Schema}
      (failed : walk.run before = .error (.unusable .unsuitable) before) :
      (Walk.memoized spec walk).run before = .error (.unusable .unsuitable) before := by
    refine Walk.run_bind_error.mpr (.inr ⟨before, before, rfl, ?_⟩)
    rw [fresh]
    exact Walk.run_bind_error.mpr (.inl failed)
  induction spec with
  | array element required nullable ih => exact memoized _ (Walk.run_bind_error.mpr (.inl (ih innermost)))
  | named other required nullable =>
    cases innermost
    have failed : setting.widened true (.ofValue (.record fragment)) = .error .unsuitable := by
      rw [Schema.ofValue_record]
      exact Schema.nullable?_ofRecord_error.mpr ⟨rfl, lacks⟩
    refine memoized _ ?_
    generalize Value.record fragment = held at supplies failed
    cases supplies with
    | primitive classified =>
      rw [compileName_primitive classified]
      exact Walk.run_ofAccess_error.mpr ⟨_, failed, rfl, rfl⟩
    | scalar classified =>
      rw [compileName_scalar classified]
      exact Walk.run_ofAccess_error.mpr ⟨_, failed, rfl, rfl⟩

private theorem outcome_of_run {given : Referent} {mode : Mode} {error : CompileError} {after : Progress}
    (run : (Compiled.ofReferent (compiler.setting mode) given).run (compiler.start given mode) = .error error after) :
    (compiler.compile given mode).outcome = .error error := by
  rw [compile_eq, run]

theorem outcome_of_misreading {value : Value} {misreading : Misreading}
    (read : TypeSpec.read false value = .error misreading) (mode : Mode) :
    (compiler.compile (.written value) mode).outcome = .error (.ofMisreading misreading) := by
  have failed : (Walk.ofReading (TypeSpec.read false value)).run (compiler.start (.written value) mode) =
      .error (.ofMisreading misreading) (compiler.start (.written value) mode) :=
    Walk.run_ofReading_error.mpr ⟨misreading, read, rfl, rfl⟩
  exact outcome_of_run (Walk.run_bind_error.mpr (.inl failed))

theorem outcome_of_lacks {value : Value} {spec : TypeSpec} {name : String} {required : Bool} {fragment : Record Value}
    (read : TypeSpec.read false value = .ok spec) (innermost : spec.innermost = .named name required true)
    (supplies : compiler.catalog.Supplies compiler.registry name (.record fragment))
    (lacks : Value.LacksAlternatives fragment) (mode : Mode) :
    (compiler.compile (.written value) mode).outcome = .error (.unusable .unsuitable) := by
  let start := compiler.start (.written value) mode
  have failed : (compileSpec (compiler.setting mode) [] spec).run start = .error (.unusable .unsuitable) start :=
    run_of_lacks innermost supplies lacks rfl []
  have rest : Compiled.ofSpec (compiler.setting mode) spec =
      compileSpec (compiler.setting mode) [] spec >>= fun schema => pure (.single schema) := by
    cases spec with
    | array => rfl
    | named other required nullable =>
      cases innermost
      generalize Value.record fragment = held at supplies
      cases supplies with
      | primitive classified => exact Compiled.ofSpec_named classified (by simp)
      | scalar classified => exact Compiled.ofSpec_named classified (by simp)
  have continued :
      (Compiled.ofSpec (compiler.setting mode) spec).run start = .error (.unusable .unsuitable) start := by
    rw [rest]
    exact Walk.run_bind_error.mpr (.inl failed)
  exact outcome_of_run (Walk.run_bind_error.mpr (.inr ⟨spec, _, Walk.run_ofReading_ok.mpr ⟨read, rfl⟩, continued⟩))

/-- A compilation that fails ends in a declared error, unless a list that holds itself is read as a reference, or what
is no reference holds a number too long to be quoted, or null is to be admitted to a fragment without a type whose
alternatives cannot be gone through. All of these do end otherwise. -/
theorem failures_are_declared (catalog : Catalog) (registry : Registry) (mode : Mode) (base? : Option String)
    (history : List Action) (built : catalog.OfDefinitions) (holds : registry.HoldsObjects)
    (own : ∀ action ∈ history, action.IsModelled) :
    let compiler := (new catalog registry mode base?).after history
    ∀ value called,
      let outcome := (compiler.compile (.written value) called).outcome
      (∀ error, outcome = .error error → (compiler.setting called).TellsOf value error) ∧
      (∀ misreading, TypeSpec.read false value = .error misreading →
        (misreading.fault = .endless → outcome = .error (.unusable .endless)) ∧
        (misreading.fault ≠ .endless →
          outcome = .error (.invalidReference (.written misreading.given) misreading.fault)) ∧
        ∀ error, outcome = .error error →
          (error.IsReported ↔ misreading.fault ≠ .endless ∧ misreading.given.isWritable = true)) ∧
      ∀ spec name required fragment, TypeSpec.read false value = .ok spec →
        spec.innermost = .named name required true →
        compiler.catalog.Supplies compiler.registry name (.record fragment) → Value.LacksAlternatives fragment →
        outcome = .error (.unusable .unsuitable) := by
  intro compiler value called outcome
  have modelled : compiler.IsModelled := by
    have begins : (new catalog registry mode base?).IsModelled := ⟨built, holds⟩
    exact begins.after own
  refine ⟨fun error failed => ?_, fun misreading read => ?_, ?_⟩
  · obtain ⟨progress, run⟩ := run_of_compile_error failed
    have nothing : ∀ entry ∈ (compiler.start (.written value) called).known, entry.2.IsObject := by
      simp [Compiler.start]
    exact Setting.tells_ofReferent modelled.built modelled.holds value _ _ _ nothing run
  · have thrown : outcome = .error (.ofMisreading misreading) := outcome_of_misreading read called
    refine ⟨fun endless => ?_, fun other => ?_, fun error failed => ?_⟩
    · rw [thrown, CompileError.ofMisreading_endless endless]
    · rw [thrown, CompileError.ofMisreading_invalid other]
    · cases thrown.symm.trans failed
      exact CompileError.isReported_ofMisreading
  · intro spec name required fragment read innermost supplies lacks
    exact outcome_of_lacks read innermost supplies lacks called

/-- A name that stands for nothing, a list that holds itself, one of a number with 5001 digits, and a nullable scalar
between brackets. -/
theorem failures_are_declared_of_odd :
    let odd : Definition := .scalar "Odd" [("oneOf", .int 5)]
    let history : List Action := [.registerType (some "odd") (.checked odd), .registerPrimitive "any" (.record [])]
    let compiler := (new .empty .builtins .jsonSchema none).after history
    let outcome (value : Value) := (compiler.compile (.written value) .openApi).outcome
    let endless : Value := .knot 0 (.list [.again 0 false])
    let long : Int := .ofNat (Nat.pow 10 5000)
    (∃ error, outcome (.text "nothing") = .error error ∧ (compiler.setting .openApi).TellsOf (.text "nothing") error) ∧
      (∃ misreading, TypeSpec.read false endless = .error misreading ∧ misreading.fault = .endless ∧
        outcome endless = .error (.unusable .endless)) ∧
      (TypeSpec.read false (.list [.int long]) = .error ⟨.int long, .notReference⟩ ∧
        (Value.int long).isWritable = false ∧
        ∃ error, outcome (.list [.int long]) = .error error ∧ ¬ error.IsReported) ∧
      TypeSpec.read false (.text "[[odd?]]") =
          .ok (.array (.array (.named "odd" false true) false false) false false) ∧
        compiler.catalog.Supplies compiler.registry "odd" (.record [("oneOf", .int 5)]) ∧
        Value.LacksAlternatives [("oneOf", .int 5)] ∧
        outcome (.text "[[odd?]]") = .error (.unusable .unsuitable) := by
  intro odd history compiler outcome endless long
  have holds : Registry.builtins.HoldsObjects := Registry.builtins_isRegular.holdsObjects
  have own : ∀ action ∈ history, action.IsModelled := by
    simp [history, Action.IsModelled]
  have applied (value : Value) :=
    failures_are_declared .empty .builtins .jsonSchema none history .empty holds own value .openApi
  have failed : ∃ error, outcome (.text "nothing") = .error error := by
    cases same : outcome (.text "nothing") with
    | error error => exact ⟨error, rfl⟩
    | ok compiled =>
      have none : (outcome (.text "nothing")).toOption.isSome = false := by decide +kernel
      rw [same] at none
      cases none
  obtain ⟨error, missing⟩ := failed
  have misread : ∃ misreading, TypeSpec.read false endless = .error misreading ∧ misreading.fault = .endless :=
    ⟨_, rfl, rfl⟩
  obtain ⟨misreading, read, fault⟩ := misread
  have number : TypeSpec.read false (.list [.int long]) = .error ⟨.int long, .notReference⟩ := rfl
  have unwritable : (Value.int long).isWritable = false := by decide +kernel
  have said := (applied (.list [.int long])).2.1 _ number
  have refused := said.2.1 nofun
  have reads : TypeSpec.read false (.text "[[odd?]]") =
      .ok (.array (.array (.named "odd" false true) false false) false false) := toOption_eq_some.mp (by decide +kernel)
  have supplies : compiler.catalog.Supplies compiler.registry "odd" (.record [("oneOf", .int 5)]) :=
    .scalar (show classify compiler.catalog compiler.registry "odd" = .ok (.entry .scalar (.checked odd)) from rfl)
  have lacks : Value.LacksAlternatives [("oneOf", .int 5)] := ⟨rfl, .int 5, rfl, rfl⟩
  refine ⟨⟨error, missing, (applied _).1 error missing⟩,
    ⟨misreading, read, fault, ((applied _).2.1 misreading read).1 fault⟩, ⟨number, unwritable, _, refused, ?_⟩,
    reads, supplies, lacks, ?_⟩
  · intro reported
    exact Bool.false_ne_true (unwritable.symm.trans ((said.2.2 _ refused).mp reported).2)
  · exact (applied _).2.2 _ "odd" false _ reads rfl supplies lacks

private def isUndeclared : Except CompileError Compiled → Bool
  | .error (.unusable _) => true
  | _ => false

/-- A definition that is accepted, and a text that compiles to no value and to no declared error. -/
theorem alternatives_not_gone_through :
    let odd : Definition := .scalar "Odd" [("oneOf", .int 5)]
    let catalog : Catalog := ⟨[("Odd", .checked odd)], [(.text "Odd", "Odd")]⟩
    let outcome := ((new catalog .builtins .jsonSchema none).compile (.written (.text "Odd?")) .jsonSchema).outcome
    Definition.check odd.toValue = .ok odd ∧ Catalog.empty.register (some "Odd") (.checked odd) = .ok catalog ∧
      ∃ error, outcome = .error error ∧ ¬ error.IsReported := by
  intro odd catalog outcome
  have strays : isUndeclared outcome = true := by decide +kernel
  refine ⟨rfl, rfl, ?_⟩
  cases result : outcome with
  | ok compiled =>
    rw [result] at strays
    cases strays
  | error error =>
    rw [result] at strays
    refine ⟨error, rfl, fun reported => ?_⟩
    cases error with
    | unusable => exact reported
    | invalidReference | unknownType | unknownKind | unterminatedRecursion => cases strays

end Compiler

end Schemata
