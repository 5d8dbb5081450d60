import Schemata.Proofs.DefinitionGraph
import Schemata.Proofs.Records
import Schemata.Proofs.ShapeBodies

/-! One induction over the walk of a compilation. A discipline says, for every chain, what the
progress is held to and what is known of the schema of a reference; each of its laws is about a
single step. Every compilation that succeeds then keeps to the discipline, however deep it went. -/

namespace Schemata

/-- Each step into a named type puts a new name of the catalog on the chain. -/
theorem Setting.chain_induction (setting : Setting) {motive : List Name → Prop}
    (step : ∀ chain, (∀ entry ∈ setting.catalog.toList, entry.name ∉ chain → motive (chain ++ [entry.name])) →
      motive chain) (chain : List Name) : motive chain := by
  generalize bound : setting.unvisited chain = size
  induction size using Nat.strongRecOn generalizing chain with
  | ind size ih =>
    apply step chain
    intro entry held fresh
    exact ih _ (bound ▸ Setting.unvisited_lt held fresh) _ rfl

section Names

variable {setting : Setting} {chain : List Name} {name : String} {required nullable : Bool}

theorem compileName_error {error : CompileError}
    (classified : classify setting.catalog setting.registry name = .error error) :
    compileName setting chain name required nullable = throw error := by
  rw [compileName]
  split <;> simp_all

theorem compileName_primitive {fragment : Value}
    (classified : classify setting.catalog setting.registry name = .ok (.primitive fragment)) :
    compileName setting chain name required nullable =
      .ofAccess (setting.widened nullable (.ofValue fragment)) := by
  rw [compileName]
  split <;> simp_all [Setting.widen_eq]

theorem compileName_input {entry : Entry}
    (classified : classify setting.catalog setting.registry name = .ok (.entry .input entry)) :
    compileName setting chain name required nullable =
      throw (.invalidReference (.written (.text (TypeSpec.named name required nullable).render)) (.nestedInput name)) := by
  rw [compileName]
  split <;> simp_all

theorem compileName_scalar {entry : Entry}
    (classified : classify setting.catalog setting.registry name = .ok (.entry .scalar entry)) :
    compileName setting chain name required nullable =
      Walk.ofAccess entry.fragment >>= fun fragment =>
        .ofAccess (setting.widened nullable (.ofValue fragment)) := by
  rw [compileName]
  split <;> simp_all [Setting.widen_eq]

theorem compileName_named {kind : Kind} {entry : Entry} (named : kind.isNamed = true)
    (classified : classify setting.catalog setting.registry name = .ok (.entry kind entry)) :
    compileName setting chain name required nullable =
      setting.occurrence chain entry nullable fun _ =>
        compileBody setting (chain ++ [entry.name]) kind entry := by
  rw [compileName]
  split
  next impossible => cases classified.symm.trans impossible
  next impossible => cases classified.symm.trans impossible
  next impossible => cases classified.symm.trans impossible; cases named
  next impossible => cases classified.symm.trans impossible; cases named
  next again => cases classified.symm.trans again; rfl

/-- What is no named type stands for its fragment alone. -/
theorem compileName_fragment {fragment : Value}
    (supplies : setting.catalog.Supplies setting.registry name fragment) :
    compileName setting chain name required nullable = .ofAccess (setting.widened nullable (.ofValue fragment)) := by
  cases supplies with
  | primitive classified => exact compileName_primitive classified
  | scalar classified => exact compileName_scalar classified

end Names

inductive Setting.Occurs (setting : Setting) (chain : List Name) (entry : Entry) (nullable : Bool)
    (body : entry.name ∉ chain → Walk Schema) (before : Progress) : Schema → Progress → Prop where
  | inlined {written schema after} (inline : setting.hoisting = false) (fresh : entry.name ∉ chain)
      (ran : (body fresh).run before = .ok written after)
      (widened : setting.widened nullable written = .ok schema) :
      Occurs setting chain entry nullable body before schema after
  | reused {name schema} (hoisting : setting.hoisting = true) (named : entry.name = .text name)
      (known : name ∈ Record.names before.table)
      (widened : setting.widened nullable (.reference setting.dialect.base name) = .ok schema) :
      Occurs setting chain entry nullable body before schema
        { before with events := .reused name :: before.events }
  | recursive {name schema} (hoisting : setting.hoisting = true) (named : entry.name = .text name)
      (absent : name ∉ Record.names before.table) (inside : entry.name ∈ chain)
      (widened : setting.widened nullable (.reference setting.dialect.base name) = .ok schema) :
      Occurs setting chain entry nullable body before schema
        { before with events := .recursive name :: before.events }
  | hoisted {name written schema middle} (hoisting : setting.hoisting = true) (named : entry.name = .text name)
      (absent : name ∉ Record.names before.table) (fresh : entry.name ∉ chain)
      (ran : (body fresh).run before = .ok written middle)
      (widened : setting.widened nullable (.reference setting.dialect.base name) = .ok schema) :
      Occurs setting chain entry nullable body before schema
        { middle with table := Record.set middle.table name written, events := .hoisted name :: middle.events }

theorem Setting.occurs_of_run {setting : Setting} {chain : List Name} {entry : Entry} {nullable : Bool}
    {body : entry.name ∉ chain → Walk Schema} {before after : Progress} {schema : Schema}
    (run : (setting.occurrence chain entry nullable body).run before = .ok schema after) :
    setting.Occurs chain entry nullable body before schema after := by
  unfold occurrence at run
  split at run
  next hoisting =>
    split at run
    next name named =>
      obtain ⟨progress, middle, got, run⟩ := Walk.run_bind_ok.mp run
      cases got
      simp only [widen_eq] at run
      split at run
      next known =>
        obtain ⟨_, _, noted, run⟩ := Walk.run_bind_ok.mp run
        cases noted
        obtain ⟨widened, rfl⟩ := Walk.run_ofAccess_ok.mp run
        exact .reused hoisting named (Record.has_iff.mp known) widened
      next unknown =>
        have absent : name ∉ Record.names before.table := fun known => unknown (Record.has_iff.mpr known)
        split at run
        next inside =>
          obtain ⟨_, _, noted, run⟩ := Walk.run_bind_ok.mp run
          cases noted
          obtain ⟨widened, rfl⟩ := Walk.run_ofAccess_ok.mp run
          exact .recursive hoisting named absent inside widened
        next fresh =>
          obtain ⟨written, middle, ran, run⟩ := Walk.run_bind_ok.mp run
          obtain ⟨_, _, put, run⟩ := Walk.run_bind_ok.mp run
          obtain ⟨_, _, noted, run⟩ := Walk.run_bind_ok.mp run
          cases put
          cases noted
          obtain ⟨widened, rfl⟩ := Walk.run_ofAccess_ok.mp run
          exact .hoisted hoisting named absent fresh ran widened
    next =>
      split at run
      next =>
        obtain ⟨_, _, -, run⟩ := Walk.run_bind_ok.mp run
        exact (Walk.run_throw_ok run).elim
      next => exact (Walk.run_throw_ok run).elim
  next inline =>
    split at run
    next => exact (Walk.run_throw_ok run).elim
    next fresh =>
      obtain ⟨written, _, ran, run⟩ := Walk.run_bind_ok.mp run
      rw [widen_eq] at run
      obtain ⟨widened, rfl⟩ := Walk.run_ofAccess_ok.mp run
      exact .inlined (by simpa using inline) fresh ran widened

def Setting.ShowsEntry (setting : Setting) (shows : TypeSpec → Schema → Prop) (kind : Kind) (entry : Entry)
    (body : Schema) : Prop :=
  match entry with
  | .checked definition => setting.ShowsBody shows definition body
  | .handwritten shape => setting.ShowsShape shows kind shape body

theorem Setting.ShowsEntry.weaken {setting : Setting} {shows other : TypeSpec → Schema → Prop} {kind : Kind}
    {entry : Entry} {body : Schema} (shown : setting.ShowsEntry shows kind entry body)
    (implies : ∀ spec schema, shows spec schema → other spec schema) : setting.ShowsEntry other kind entry body := by
  cases entry with
  | checked definition => exact Setting.ShowsBody.imp shown fun spec schema _ => implies spec schema
  | handwritten shape => exact Setting.ShowsShape.imp implies shown

/-- A type that may be entered: it is not on the chain, nor in the table when types are hoisted. -/
structure Setting.IsNew (setting : Setting) (chain : List Name) (entry : Entry) (progress : Progress) : Prop where
  offChain : entry.name ∉ chain
  absent : setting.hoisting = true → ∀ name, entry.name = .text name → name ∉ Record.names progress.table

/-- The laws of one compilation, step by step. `admits` and `enters` say which references and which
types are met at all; `shows` and `stands` what is known of their schemas. -/
structure Discipline (setting : Setting) where
  rules : List Name → Rules
  admits : List Name → TypeSpec → Prop
  enters : List Name → Kind → Entry → Prop
  shows : List Name → TypeSpec → Schema → Progress → Prop
  stands : List Name → Entry → Bool → Schema → Progress → Prop
  stable (chain : List Name) (spec : TypeSpec) (schema : Schema) : (rules chain).Stable (shows chain spec schema)
  silent {chain : List Name} {progress : Progress} (events : List Event) :
    (rules chain).invariant progress →
    (rules chain).invariant { progress with events } ∧ (rules chain).growth progress { progress with events }
  recalled {chain : List Name} {progress : Progress} {spec : TypeSpec} {schema : Schema} :
    (rules chain).invariant progress → admits chain spec → progress.known.lookup spec.optional = some schema →
    shows chain spec schema progress
  remember {chain : List Name} {progress : Progress} {spec : TypeSpec} {schema : Schema} :
    (rules chain).invariant progress → admits chain spec → shows chain spec schema progress →
    (rules chain).invariant { progress with known := (spec.optional, schema) :: progress.known } ∧
      (rules chain).growth progress { progress with known := (spec.optional, schema) :: progress.known }
  element {chain : List Name} {element : TypeSpec} {required nullable : Bool} :
    admits chain (.array element required nullable) → admits chain element
  array {chain : List Name} {progress : Progress} {element : TypeSpec} {required nullable : Bool}
    {items schema : Schema} : shows chain element items progress →
    setting.widened nullable (.array items) = .ok schema →
    shows chain (.array element required nullable) schema progress
  primitive {chain : List Name} {progress : Progress} {name : String} {required nullable : Bool}
    {fragment : Value} {schema : Schema} :
    classify setting.catalog setting.registry name = .ok (.primitive fragment) →
    setting.widened nullable (.ofValue fragment) = .ok schema →
    shows chain (.named name required nullable) schema progress
  scalar {chain : List Name} {progress : Progress} {name : String} {required nullable : Bool}
    {entry : Entry} {fragment : Value} {schema : Schema} :
    classify setting.catalog setting.registry name = .ok (.entry .scalar entry) →
    entry.fragment = .ok fragment → setting.widened nullable (.ofValue fragment) = .ok schema →
    shows chain (.named name required nullable) schema progress
  named {chain : List Name} {progress : Progress} {name : String} {required nullable : Bool} {kind : Kind}
    {entry : Entry} {schema : Schema} : kind.isNamed = true →
    classify setting.catalog setting.registry name = .ok (.entry kind entry) →
    stands chain entry nullable schema progress → shows chain (.named name required nullable) schema progress
  entered {chain : List Name} {name : String} {required nullable : Bool} {kind : Kind} {entry : Entry} :
    admits chain (.named name required nullable) →
    classify setting.catalog setting.registry name = .ok (.entry kind entry) → enters chain kind entry
  mentioned {chain : List Name} {kind : Kind} {entry : Entry} {spec : TypeSpec} {progress : Progress} :
    kind.isNamed = true → enters chain kind entry → setting.IsNew chain entry progress →
    (rules chain).invariant progress →
    (∀ definition, entry = .checked definition → definition.Mentions spec) → admits (chain ++ [entry.name]) spec
  asked {entry : Entry} {spec : TypeSpec} : enters [] .input entry →
    (∀ definition, entry = .checked definition → definition.Mentions spec) → admits [] spec
  enter {chain : List Name} {entry : Entry} {progress : Progress} :
    (rules chain).invariant progress → (rules (chain ++ [entry.name])).invariant progress
  inlined {chain : List Name} {kind : Kind} {entry : Entry} {nullable : Bool} {before after : Progress}
    {body schema : Schema} : setting.hoisting = false → kind.isNamed = true → enters chain kind entry → entry.name ∉ chain →
    (rules chain).invariant before → (rules (chain ++ [entry.name])).invariant after →
    (rules (chain ++ [entry.name])).growth before after →
    setting.ShowsEntry (fun spec schema => shows (chain ++ [entry.name]) spec schema after) kind entry body →
    setting.widened nullable body = .ok schema →
    (rules chain).invariant after ∧ (rules chain).growth before after ∧ stands chain entry nullable schema after
  referred {chain : List Name} {kind : Kind} {entry : Entry} {nullable : Bool} {progress : Progress}
    {name : String} {schema : Schema} : setting.hoisting = true → kind.isNamed = true → enters chain kind entry →
    entry.name = .text name →
    name ∈ Record.names progress.table ∨ entry.name ∈ chain →
    setting.widened nullable (.reference setting.dialect.base name) = .ok schema →
    stands chain entry nullable schema progress
  hoisted {chain : List Name} {kind : Kind} {entry : Entry} {before after : Progress} {name : String}
    {body : Schema} : setting.hoisting = true → kind.isNamed = true → enters chain kind entry → entry.name = .text name →
    name ∉ Record.names before.table → entry.name ∉ chain →
    (rules chain).invariant before → (rules (chain ++ [entry.name])).invariant after →
    (rules (chain ++ [entry.name])).growth before after →
    setting.ShowsEntry (fun spec schema => shows (chain ++ [entry.name]) spec schema after) kind entry body →
    (rules chain).invariant { after with table := Record.set after.table name body } ∧
      (rules chain).growth before { after with table := Record.set after.table name body }

namespace Discipline

variable {setting : Setting} (discipline : Discipline setting) {chain : List Name}

private theorem ensures_memoized {spec : TypeSpec} {walk : Walk Schema} (admitted : discipline.admits chain spec)
    (valid : (discipline.rules chain).Ensures (discipline.shows chain spec) walk) :
    (discipline.rules chain).Ensures (discipline.shows chain spec) (Walk.memoized spec walk) := by
  intro before schema after kept run
  obtain ⟨progress, _, got, run⟩ := Walk.run_bind_ok.mp run
  cases got
  split at run
  next known =>
    obtain ⟨rfl, rfl⟩ := Walk.run_pure_ok.mp run
    exact ⟨kept, Rules.refl _ _, discipline.recalled kept admitted known⟩
  next =>
    obtain ⟨value, middle, ran, run⟩ := Walk.run_bind_ok.mp run
    obtain ⟨_, _, modified, run⟩ := Walk.run_bind_ok.mp run
    cases modified
    obtain ⟨rfl, rfl⟩ := Walk.run_pure_ok.mp run
    obtain ⟨later, grown, shown⟩ := valid before _ middle kept ran
    obtain ⟨final, further⟩ := discipline.remember later admitted shown
    exact ⟨final, Rules.trans _ grown further, discipline.stable chain spec _ _ _ further shown⟩

private theorem ensures_spec {named : String → Bool → Bool → Walk Schema}
    (valid : ∀ name required nullable, discipline.admits chain (.named name required nullable) →
      (discipline.rules chain).Ensures (discipline.shows chain (.named name required nullable))
        (named name required nullable)) (spec : TypeSpec) (admitted : discipline.admits chain spec) :
    (discipline.rules chain).Ensures (discipline.shows chain spec) (setting.spec named spec) := by
  induction spec with
  | named name required nullable => exact discipline.ensures_memoized admitted (valid name required nullable admitted)
  | array element required nullable ih =>
    refine discipline.ensures_memoized admitted ((ih (discipline.element admitted)).bind ?_)
    intro items current kept shown schema after run
    rw [Setting.widen_eq] at run
    obtain ⟨widened, rfl⟩ := Walk.run_ofAccess_ok.mp run
    exact ⟨kept, Rules.refl _ _, discipline.array shown widened⟩

private theorem ensures_body {compile : TypeSpec → Walk Schema}
    (valid : ∀ spec, discipline.admits chain spec →
      (discipline.rules chain).Ensures (discipline.shows chain spec) (compile spec))
    {kind : Kind} {entry : Entry}
    (mentioned : ∀ spec, (∀ definition, entry = .checked definition → definition.Mentions spec) →
      discipline.admits chain spec) :
    (discipline.rules chain).Ensures
      (fun body after =>
        setting.ShowsEntry (fun spec schema => discipline.shows chain spec schema after) kind entry body)
      (setting.body compile kind entry) := by
  cases entry with
  | checked definition =>
    apply Rules.Ensures.definitionBody definition (discipline.stable chain)
    intro spec mentions
    refine valid spec (mentioned spec ?_)
    intro other same
    cases same
    exact mentions
  | handwritten shape =>
    apply Rules.Ensures.shapeBody kind shape (discipline.stable chain)
    intro spec
    exact valid spec (mentioned spec fun _ impossible => nomatch impossible)

theorem ensures_occurrence {kind : Kind} {entry : Entry} {nullable : Bool} {walk : Walk Schema}
    (kindNamed : kind.isNamed = true) (entered : discipline.enters chain kind entry)
    (valid : entry.name ∉ chain → (∀ spec, (∀ definition, entry = .checked definition → definition.Mentions spec) →
        discipline.admits (chain ++ [entry.name]) spec) →
      (discipline.rules (chain ++ [entry.name])).Ensures (fun body after => setting.ShowsEntry
        (fun spec schema => discipline.shows (chain ++ [entry.name]) spec schema after) kind entry body) walk) :
    (discipline.rules chain).Ensures (discipline.stands chain entry nullable)
      (setting.occurrence chain entry nullable fun _ => walk) := by
  intro before schema after kept run
  have inside (new : setting.IsNew chain entry before) :=
    valid new.offChain fun spec mentions => discipline.mentioned kindNamed entered new kept mentions
  cases Setting.occurs_of_run run with
  | inlined inline fresh ran widened =>
    obtain ⟨later, grown, shown⟩ := inside ⟨fresh, by simp [inline]⟩ _ _ _ (discipline.enter kept) ran
    exact discipline.inlined inline kindNamed entered fresh kept later grown shown widened
  | reused hoisting named known widened =>
    obtain ⟨later, grown⟩ := discipline.silent _ kept
    exact ⟨later, grown, discipline.referred hoisting kindNamed entered named (.inl known) widened⟩
  | recursive hoisting named absent inside widened =>
    obtain ⟨later, grown⟩ := discipline.silent _ kept
    exact ⟨later, grown, discipline.referred hoisting kindNamed entered named (.inr inside) widened⟩
  | @hoisted name _ _ middle hoisting named absent fresh ran widened =>
    have new : setting.IsNew chain entry before := by
      refine ⟨fresh, fun _ other same => ?_⟩
      cases named.symm.trans same
      exact absent
    obtain ⟨inner, grown, shown⟩ := inside new _ _ _ (discipline.enter kept) ran
    obtain ⟨later, further⟩ := discipline.hoisted hoisting kindNamed entered named absent fresh kept inner grown shown
    obtain ⟨final, quiet⟩ := discipline.silent (.hoisted name :: middle.events) later
    refine ⟨final, Rules.trans _ further quiet, discipline.referred hoisting kindNamed entered named (.inl ?_) widened⟩
    exact Record.mem_names_set_self ..

/-- Compiling a reference keeps to the discipline. -/
theorem ensures_compileSpec (chain : List Name) (spec : TypeSpec) (admitted : discipline.admits chain spec) :
    (discipline.rules chain).Ensures (discipline.shows chain spec) (compileSpec setting chain spec) := by
  induction chain using setting.chain_induction generalizing spec with
  | step chain ih =>
    refine discipline.ensures_spec (fun name required nullable admitted => ?_) spec admitted
    cases denotation setting.catalog setting.registry name with
    | nothing classified =>
      rw [compileName_error classified]
      exact Rules.Ensures.throw _
    | primitive classified =>
      rw [compileName_primitive classified]
      intro before schema after kept run
      obtain ⟨widened, rfl⟩ := Walk.run_ofAccess_ok.mp run
      exact ⟨kept, Rules.refl _ _, discipline.primitive classified widened⟩
    | input classified =>
      rw [compileName_input classified]
      exact Rules.Ensures.throw _
    | scalar classified =>
      rw [compileName_scalar classified]
      intro before schema after kept run
      simp only [Walk.run_bind_ok, Walk.run_ofAccess_ok] at run
      obtain ⟨fragment, _, ⟨read, rfl⟩, widened, rfl⟩ := run
      exact ⟨kept, Rules.refl _ _, discipline.scalar classified read widened⟩
    | @type kind entry named classified =>
      rw [compileName_named named classified]
      have entered := discipline.entered admitted classified
      refine (discipline.ensures_occurrence named entered fun fresh mentioned => ?_).weaken
        fun schema after => discipline.named named classified
      exact discipline.ensures_body (ih entry (mem_of_classify_eq classified) fresh) mentioned

end Discipline

/-- What a compilation answers, by how references are shown and how types stand. -/
inductive Setting.Answers (setting : Setting) (shows : TypeSpec → Schema → Prop) (stands : Entry → Schema → Prop) :
    Referent → Compiled → Prop where
  | reference {value spec schema} (read : TypeSpec.read false value = .ok spec) (shown : shows spec schema) :
      Answers setting shows stands (.written value) (.single schema)
  | input {value name required entry records}
      (read : TypeSpec.read false value = .ok (.named name required false))
      (classified : classify setting.catalog setting.registry name = .ok (.entry .input entry))
      (shown : ShowsParameters shows entry records) :
      Answers setting shows stands (.written value) (.parameters records)
  | parameters {name parameters records}
      (shown : ShowsParameters shows (.checked (.input name parameters)) records) :
      Answers setting shows stands (.entry (.checked (.input name parameters))) (.parameters records)
  | fragment {name fragment} :
      Answers setting shows stands (.entry (.checked (.scalar name fragment))) (.single (.ofRecord fragment))
  | type {definition schema} (named : definition.kind.isNamed = true)
      (stood : stands (.checked definition) schema) :
      Answers setting shows stands (.entry (.checked definition)) (.single schema)

theorem Setting.Answers.imp {setting : Setting} {shows otherShows : TypeSpec → Schema → Prop}
    {stands otherStands : Entry → Schema → Prop} {given : Referent} {compiled : Compiled}
    (answers : setting.Answers shows stands given compiled)
    (shown : ∀ spec schema, shows spec schema → otherShows spec schema)
    (stood : ∀ entry schema, stands entry schema → otherStands entry schema) :
    setting.Answers otherShows otherStands given compiled := by
  cases answers with
  | reference read own => exact .reference read (shown _ _ own)
  | input read classified own => exact .input read classified (own.imp shown)
  | parameters own => exact .parameters (own.imp shown)
  | fragment => exact .fragment
  | type named own => exact .type named (stood _ _ own)

def Compiled.single? : Compiled → Option Schema
  | .single schema => some schema
  | .parameters _ => none

def Compiled.records? : Compiled → Option (List (ParameterRecord Schema))
  | .single _ => none
  | .parameters records => some records

theorem Compiled.single?_eq_some {compiled : Compiled} {schema : Schema} :
    compiled.single? = some schema ↔ compiled = .single schema := by
  cases compiled <;> simp [single?]

theorem Compiled.records?_eq_some {compiled : Compiled} {records : List (ParameterRecord Schema)} :
    compiled.records? = some records ↔ compiled = .parameters records := by
  cases compiled <;> simp [records?]

theorem Compiled.ofSpec_named {setting : Setting} {name : String} {required nullable : Bool} {found : Classified}
    (classified : classify setting.catalog setting.registry name = .ok found)
    (noInput : ∀ entry, found ≠ .entry .input entry) :
    Compiled.ofSpec setting (.named name required nullable) =
      compileSpec setting [] (.named name required nullable) >>= fun schema => pure (.single schema) := by
  unfold Compiled.ofSpec
  simp only [TypeSpec.name?, classified]
  cases found with
  | primitive fragment => rfl
  | entry kind entry => cases kind <;> first | rfl | exact absurd rfl (noInput entry)

theorem Compiled.ofSpec_input {setting : Setting} {name : String} {required nullable : Bool} {entry : Entry}
    (classified : classify setting.catalog setting.registry name = .ok (.entry .input entry)) :
    Compiled.ofSpec setting (.named name required nullable) =
      if nullable then
        throw (.invalidReference (.written (.text (TypeSpec.named name required nullable).render)) .nullableInput)
      else Compiled.ofInput setting entry := by
  unfold Compiled.ofSpec
  simp only [TypeSpec.name?, classified]
  cases nullable <;> rfl

theorem Compiled.ofSpec_error {setting : Setting} {name : String} {required nullable : Bool} {error : CompileError}
    (classified : classify setting.catalog setting.registry name = .error error) :
    Compiled.ofSpec setting (.named name required nullable) = throw error := by
  unfold Compiled.ofSpec
  simp only [TypeSpec.name?, classified]
  rfl

theorem Compiled.ofDefinition_named {setting : Setting} {definition : Definition}
    (named : definition.kind.isNamed = true) :
    Compiled.ofDefinition setting definition =
      setting.occurrence [] (.checked definition) false
        (fun _ => compileBody setting ([] ++ [(Entry.checked definition).name]) definition.kind (.checked definition))
        >>= fun schema => pure (.single schema) := by
  cases definition <;> first | rfl | cases named

namespace Discipline

variable {setting : Setting} (discipline : Discipline setting)

def Receives : Referent → Prop
  | .written value => ∀ spec, TypeSpec.read false value = .ok spec → discipline.admits [] spec
  | .entry (.checked definition) => discipline.enters [] definition.kind (.checked definition)
  | .entry (.handwritten _) => True

theorem receives_of_admits (admits : ∀ spec, discipline.admits [] spec) {given : Referent}
    (enters : ∀ definition, given = .entry (.checked definition) →
      discipline.enters [] definition.kind (.checked definition)) : discipline.Receives given := by
  cases given with
  | written => exact fun spec _ => admits spec
  | entry entry =>
    cases entry with
    | checked definition => exact enters definition rfl
    | handwritten => trivial

private theorem ensures_ofInput {entry : Entry} (entered : discipline.enters [] .input entry) :
    (discipline.rules []).Ensures
      (fun compiled after => ∃ records,
        ShowsParameters (fun spec schema => discipline.shows [] spec schema after) entry records ∧
          compiled = .parameters records)
      (Compiled.ofInput setting entry) := by
  refine (Rules.Ensures.parameters entry (discipline.stable []) fun spec mentions =>
    discipline.ensures_compileSpec [] spec (discipline.asked entered mentions)).bind ?_
  intro records current kept shown compiled after run
  obtain ⟨rfl, rfl⟩ := Walk.run_pure_ok.mp run
  exact ⟨kept, Rules.refl _ _, records, shown, rfl⟩

private theorem ensures_ofSpec {value : Value} {spec : TypeSpec} (read : TypeSpec.read false value = .ok spec)
    (admitted : discipline.admits [] spec) :
    (discipline.rules []).Ensures
      (fun compiled after => setting.Answers (fun spec schema => discipline.shows [] spec schema after)
        (fun entry schema => discipline.stands [] entry false schema after) (.written value) compiled)
      (Compiled.ofSpec setting spec) := by
  have single : (discipline.rules []).Ensures
      (fun compiled after => setting.Answers (fun spec schema => discipline.shows [] spec schema after)
        (fun entry schema => discipline.stands [] entry false schema after) (.written value) compiled)
      (compileSpec setting [] spec >>= fun schema => pure (.single schema)) := by
    refine (discipline.ensures_compileSpec [] spec admitted).bind ?_
    intro schema current kept shown compiled after run
    obtain ⟨rfl, rfl⟩ := Walk.run_pure_ok.mp run
    exact ⟨kept, Rules.refl _ _, .reference read shown⟩
  cases spec with
  | array element required nullable => exact single
  | named name required nullable =>
    rcases classify_cases setting.catalog setting.registry name with
      ⟨error, classified⟩ | ⟨entry, classified⟩ | ⟨found, classified, noInput⟩
    · rw [Compiled.ofSpec_error classified]
      exact Rules.Ensures.throw _
    · rw [Compiled.ofSpec_input classified]
      cases nullable with
      | true => exact Rules.Ensures.throw _
      | false =>
        refine (discipline.ensures_ofInput (discipline.entered admitted classified)).weaken ?_
        intro compiled after shown
        obtain ⟨records, shown, rfl⟩ := shown
        exact .input read classified shown
    · rw [Compiled.ofSpec_named classified noInput]
      exact single

/-- A compilation that succeeds keeps to the discipline. -/
theorem ensures_ofReferent (given : Referent) (received : discipline.Receives given) :
    (discipline.rules []).Ensures
      (fun compiled after => setting.Answers (fun spec schema => discipline.shows [] spec schema after)
        (fun entry schema => discipline.stands [] entry false schema after) given compiled)
      (Compiled.ofReferent setting given) := by
  cases given with
  | entry entry =>
    cases entry with
    | handwritten shape => exact Rules.Ensures.throw _
    | checked definition =>
      by_cases named : definition.kind.isNamed = true
      · rw [Compiled.ofReferent, Compiled.ofDefinition_named named]
        refine (discipline.ensures_occurrence named received fun _ mentioned =>
          discipline.ensures_body (discipline.ensures_compileSpec _) mentioned).bind ?_
        intro schema current kept stood compiled after run
        obtain ⟨rfl, rfl⟩ := Walk.run_pure_ok.mp run
        exact ⟨kept, Rules.refl _ _, .type named stood⟩
      · cases definition with
        | product | sum | map | union => exact absurd rfl named
        | scalar name fragment =>
          intro before compiled after kept run
          obtain ⟨rfl, rfl⟩ := Walk.run_pure_ok.mp run
          exact ⟨kept, Rules.refl _ _, .fragment⟩
        | input name parameters =>
          refine (discipline.ensures_ofInput received).weaken ?_
          intro compiled after shown
          obtain ⟨records, shown, rfl⟩ := shown
          exact .parameters shown
  | written value =>
    intro before compiled after kept run
    simp only [Compiled.ofReferent, Walk.run_bind_ok, Walk.run_ofReading_ok] at run
    obtain ⟨spec, _, ⟨read, rfl⟩, run⟩ := run
    exact discipline.ensures_ofSpec read (received spec read) _ _ _ kept run

end Discipline

end Schemata
