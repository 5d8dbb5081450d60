import Schemata.Proofs.SettledReferences
import Schemata.Proofs.WalkFailures
import Schemata.Proofs.WrittenSchemas

/-! Why a compilation fails. Where every fragment is a record and its alternatives, if it has any, are a
list, schemas can always be described and widened. What is left are the references: some cannot be read,
some stand for nothing or for an input, and without hoisting some lead back to a type that is still open.
None of this looks at a table or at what was remembered. -/

namespace Schemata

def Value.ListsAlternatives (fragment : Record Value) : Prop :=
  ∀ alternatives, Record.find? fragment "oneOf" = some alternatives → ∃ items, alternatives.items? = some items

def Registry.IsRegular (registry : Registry) : Prop :=
  ∀ name value, (name, value) ∈ registry.fragments →
    ∃ fragment, value = .record fragment ∧ Value.ListsAlternatives fragment

def Catalog.IsRegular (catalog : Catalog) : Prop :=
  ∀ name fragment, .checked (.scalar name fragment) ∈ catalog.toList → Value.ListsAlternatives fragment

def Registry.HoldsObjects (registry : Registry) : Prop :=
  ∀ name fragment, (name, fragment) ∈ registry.fragments → ∃ record, fragment = .record record

theorem Registry.IsRegular.holdsObjects {registry : Registry} (regular : registry.IsRegular) : registry.HoldsObjects := by
  intro name fragment member
  obtain ⟨record, same, -⟩ := regular name fragment member
  exact ⟨record, same⟩

theorem Registry.HoldsObjects.supplied {catalog : Catalog} {registry : Registry} (holds : registry.HoldsObjects)
    {name : String} {fragment : Value} (supplies : catalog.Supplies registry name fragment) :
    ∃ record, fragment = .record record := by
  cases supplies with
  | primitive classified => exact holds name fragment (Registry.mem_of_get? (classify_primitive.mp classified))
  | scalar => exact ⟨_, rfl⟩

theorem Registry.builtins_isRegular : builtins.IsRegular := by
  intro name value member
  simp only [builtins, List.mem_cons, Prod.mk.injEq, List.not_mem_nil, or_false] at member
  rcases member with ⟨-, rfl⟩ | ⟨-, rfl⟩ | ⟨-, rfl⟩ | ⟨-, rfl⟩ | ⟨-, rfl⟩ | ⟨-, rfl⟩ | ⟨-, rfl⟩ | ⟨-, rfl⟩ | ⟨-, rfl⟩
  all_goals exact ⟨_, rfl, nofun⟩

private theorem members?_of_items? {value : Value} {items : List Value} (listed : value.items? = some items) :
    value.members? = some items := by
  unfold Value.items? at listed
  unfold Value.members?
  split at listed
  next same => rw [same]; exact listed
  next => cases listed

def Schema.IsWidenable (schema : Schema) : Prop :=
  ∀ flagged, ∃ widened, schema.nullable? flagged = .ok widened ∧ widened.IsObject

theorem Schema.isWidenable_keywords {parts : Parts}
    (listed : ∀ part, Record.find? parts "oneOf" = some part → Record.has parts "type" = false →
      ∃ widened, addNull part = .ok widened) : (keywords parts).IsWidenable := by
  intro flagged
  simp only [nullable?]
  split
  next part found untyped =>
    obtain ⟨widened, added⟩ := listed part found untyped
    rw [added]
    exact ⟨_, rfl, trivial⟩
  next =>
    split
    all_goals
      refine ⟨_, rfl, ?_⟩
      split <;> trivial

theorem Schema.isWidenable_typed {parts : Parts} (typed : Record.has parts "type" = true) :
    (keywords parts).IsWidenable := by
  apply isWidenable_keywords
  intro part _ untyped
  rw [typed] at untyped
  cases untyped

theorem Schema.isWidenable_array (items : Schema) : (array items).IsWidenable :=
  isWidenable_typed rfl

theorem Schema.isWidenable_reference (base name : String) : (reference base name).IsWidenable := by
  apply isWidenable_keywords
  intro part found
  cases found

theorem Schema.isWidenable_ofRecord {fragment : Record Value} (regular : Value.ListsAlternatives fragment) :
    (ofRecord fragment).IsWidenable := by
  apply isWidenable_keywords
  intro part found _
  rw [find?_dataParts] at found
  obtain ⟨alternatives, given, rfl⟩ := Option.map_eq_some_iff.mp found
  obtain ⟨items, listed⟩ := regular alternatives given
  simp only [addNull, partValue, members?_of_items? listed]
  exact ⟨_, rfl⟩

theorem Schema.IsWidenable.widened {schema : Schema} (widenable : schema.IsWidenable) (object : schema.IsObject)
    (setting : Setting) (nullable : Bool) :
    ∃ widened, setting.widened nullable schema = .ok widened ∧ widened.IsObject := by
  cases nullable with
  | false => exact ⟨schema, rfl, object⟩
  | true => exact widenable setting.dialect.flagged

theorem Setting.ShowsBody.isWidenable {setting : Setting} {shows : TypeSpec → Schema → Prop} {definition : Definition}
    {body : Schema} (shown : setting.ShowsBody shows definition body) (named : definition.kind.isNamed = true) :
    body.IsObject ∧ body.IsWidenable := by
  cases definition with
  | scalar | input => cases named
  | product name fields title description contentType =>
    obtain ⟨compiled, -, rfl⟩ := shown
    exact ⟨trivial, Schema.isWidenable_typed rfl⟩
  | sum name values =>
    cases shown
    exact ⟨trivial, Schema.isWidenable_typed rfl⟩
  | map name valueType sample =>
    obtain ⟨keywords, shown, annotated⟩ := shown
    have typed : ∃ parts, body = .keywords parts ∧ Record.has parts "type" = true := by
      cases valueType with
      | none =>
        cases show keywords = .object from shown
        cases given : sampleValue? sample <;> rw [given] at annotated <;> cases annotated <;> exact ⟨_, rfl, rfl⟩
      | some type =>
        obtain ⟨values, -, set⟩ := shown
        cases set
        cases given : sampleValue? sample <;> rw [given] at annotated <;> cases annotated <;> exact ⟨_, rfl, rfl⟩
    obtain ⟨parts, rfl, has⟩ := typed
    exact ⟨trivial, Schema.isWidenable_typed has⟩
  | union name alternatives =>
    obtain ⟨schemas, -, rfl⟩ := shown
    refine ⟨trivial, Schema.isWidenable_keywords ?_⟩
    intro part found _
    cases found
    exact ⟨_, rfl⟩

namespace Setting

variable {setting : Setting}

/-- What a name that is no named type stands for is an object, widened or not. -/
theorem widened_fragment (registryRegular : setting.registry.IsRegular) (catalogRegular : setting.catalog.IsRegular)
    (nullable : Bool) {name : String} {fragment : Value}
    (supplies : setting.catalog.Supplies setting.registry name fragment) :
    ∃ widened, setting.widened nullable (.ofValue fragment) = .ok widened ∧ widened.IsObject := by
  suffices regular : ∃ record, fragment = .record record ∧ Value.ListsAlternatives record by
    obtain ⟨record, rfl, listed⟩ := regular
    rw [Schema.ofValue_record]
    exact (Schema.isWidenable_ofRecord listed).widened trivial setting nullable
  cases supplies with
  | primitive classified => exact registryRegular name fragment (Registry.mem_of_get? (classify_primitive.mp classified))
  | @scalar label record classified => exact ⟨record, rfl, catalogRegular label record (mem_of_classify_eq classified)⟩

theorem widened_isObject {schema changed : Schema} {nullable : Bool} (object : schema.IsObject)
    (done : setting.widened nullable schema = .ok changed) : changed.IsObject := by
  cases nullable with
  | false => cases done; exact object
  | true =>
    cases schema with
    | data => exact object.elim
    | keywords parts =>
      obtain ⟨others, rfl⟩ := Schema.keywords_of_nullable? done
      trivial

theorem supplied_isObject (holds : setting.registry.HoldsObjects) {name : String} {fragment : Value}
    (supplies : setting.catalog.Supplies setting.registry name fragment) : (Schema.ofValue fragment).IsObject := by
  obtain ⟨record, rfl⟩ := holds.supplied supplies
  rw [Schema.ofValue_record]
  trivial

variable (setting) in
def objects (built : setting.catalog.OfDefinitions) (holds : setting.registry.HoldsObjects) : Discipline setting where
  rules _ :=
    { invariant := fun progress => ∀ entry ∈ progress.known, entry.2.IsObject
      growth := fun _ _ => True
      refl := fun _ => trivial
      trans := fun _ _ => trivial }
  admits _ _ := True
  enters _ kind entry := ∃ definition, entry = .checked definition ∧ definition.kind = kind
  shows _ _ schema _ := schema.IsObject
  stands _ _ _ schema _ := schema.IsObject
  stable _ _ _ _ _ _ object := object
  silent _ known := ⟨known, trivial⟩
  recalled known _ found := known _ (Record.mem_of_lookup found)
  remember known _ object := ⟨List.forall_mem_cons.mpr ⟨object, known⟩, trivial⟩
  element _ := trivial
  array {_ _ _ _ _ items _} _ := widened_isObject (show (Schema.array items).IsObject from trivial)
  primitive classified widened := widened_isObject (supplied_isObject holds (.primitive classified)) widened
  scalar classified read widened := widened_isObject (supplied_isObject holds (.of_scalar built classified read)) widened
  named _ _ object := object
  entered _ classified := by
    obtain ⟨definition, rfl⟩ := built.checked (mem_of_classify_eq classified)
    exact ⟨definition, rfl, classify_checked classified⟩
  mentioned _ _ _ _ _ := trivial
  asked _ _ := trivial
  enter known := known
  inlined _ kindNamed entered _ _ known _ shown widened := by
    obtain ⟨definition, rfl, rfl⟩ := entered
    exact ⟨known, trivial, widened_isObject (shown.isWidenable kindNamed).1 widened⟩
  referred {_ _ _ _ _ name _} _ _ _ _ _ :=
    widened_isObject (show (Schema.reference setting.dialect.base name).IsObject from trivial)
  hoisted _ _ _ _ _ _ _ known _ _ := ⟨known, trivial⟩

variable (setting) in
/-- Why the compilation of a reference fails, with some names on the chain. -/
inductive Explains : List Name → TypeSpec → CompileError → Prop where
  | element {chain element required nullable error} (inner : Explains chain element error) :
      Explains chain (.array element required nullable) error
  | unclassified {chain name required nullable error}
      (classified : classify setting.catalog setting.registry name = .error error) :
      Explains chain (.named name required nullable) error
  | nested {chain name required nullable entry}
      (classified : classify setting.catalog setting.registry name = .ok (.entry .input entry)) :
      Explains chain (.named name required nullable)
        (.invalidReference (.written (.text (TypeSpec.named name required nullable).render)) (.nestedInput name))
  | endless {chain name required nullable kind definition} (inline : setting.hoisting = false)
      (classified : classify setting.catalog setting.registry name = .ok (.entry kind (.checked definition)))
      (named : kind.isNamed = true) (again : (Entry.checked definition).name ∈ chain) :
      Explains chain (.named name required nullable)
        (.unterminatedRecursion (chain ++ [(Entry.checked definition).name]))
  | misread {chain name required nullable kind definition misreading}
      (classified : classify setting.catalog setting.registry name = .ok (.entry kind (.checked definition)))
      (named : kind.isNamed = true) (reads : definition.Reads (.error misreading)) :
      Explains chain (.named name required nullable) (.ofMisreading misreading)
  | inside {chain name required nullable kind definition spec error}
      (classified : classify setting.catalog setting.registry name = .ok (.entry kind (.checked definition)))
      (named : kind.isNamed = true) (fresh : (Entry.checked definition).name ∉ chain)
      (mentions : definition.Mentions spec)
      (inner : Explains (chain ++ [(Entry.checked definition).name]) spec error) :
      Explains chain (.named name required nullable) error

theorem classify_ne_unterminated {catalog : Catalog} {registry : Registry} {name : String} {chain : List Name} :
    classify catalog registry name ≠ .error (.unterminatedRecursion chain) := by
  unfold classify
  cases registry.get? name with
  | some fragment => simp
  | none =>
    cases catalog.get? name with
    | none => simp
    | some entry => cases known : entry.kind? <;> simp [Entry.kindOf, known, Except.map]

theorem ofMisreading_ne_unterminated {misreading : Misreading} {chain : List Name} :
    CompileError.ofMisreading misreading ≠ .unterminatedRecursion chain := by
  unfold CompileError.ofMisreading
  split <;> simp

theorem Explains.inline {chain names : List Name} {spec : TypeSpec}
    (explains : setting.Explains chain spec (.unterminatedRecursion names)) : setting.hoisting = false := by
  generalize same : CompileError.unterminatedRecursion names = error at explains
  induction explains with
  | element _ ih => exact ih same
  | unclassified classified => exact absurd (same ▸ classified) classify_ne_unterminated
  | nested => cases same
  | endless inline => exact inline
  | misread => exact absurd same.symm ofMisreading_ne_unterminated
  | inside _ _ _ _ _ ih => exact ih same

section Raises

variable {rules : Rules} {allowed : CompileError → Prop}

theorem raises_memoized {spec : TypeSpec} {walk : Walk Schema} (raises : rules.Raises allowed walk) :
    rules.Raises allowed (Walk.memoized spec walk) := by
  intro before error after kept run
  rcases Walk.run_bind_error.mp run with early | ⟨progress, middle, got, late⟩
  · cases early
  · cases got
    split at late
    · exact (Walk.run_pure_error late).elim
    · refine raises.of_last (fun schema current error after late => ?_) before error after kept late
      cases late

theorem raises_place {chain : List Name} {entry : Entry} {name : String}
    {body : entry.name ∉ chain → Walk Schema} (raises : ∀ fresh, rules.Raises allowed (body fresh)) :
    rules.Raises allowed (place chain entry name body) := by
  intro before error after kept run
  rw [place_run] at run
  split at run
  · cases run
  · split at run
    · cases run
    · next fresh =>
      rcases Walk.run_bind_error.mp run with inner | ⟨written, middle, -, late⟩
      · exact raises fresh before error after kept inner
      · cases late

theorem raises_occurrence {chain : List Name} {definition : Definition} {nullable : Bool}
    {body : (Entry.checked definition).name ∉ chain → Walk Schema}
    (endless : setting.hoisting = false → (Entry.checked definition).name ∈ chain →
      allowed (.unterminatedRecursion (chain ++ [(Entry.checked definition).name])))
    (valid : ∀ fresh, rules.Ensures (fun written _ => written.IsObject ∧ written.IsWidenable) (body fresh))
    (raises : ∀ fresh, rules.Raises allowed (body fresh)) :
    rules.Raises allowed (setting.occurrence chain (.checked definition) nullable body) := by
  cases hoists : setting.hoisting with
  | true =>
    rw [occurrence_hoisting hoists rfl]
    intro before error after kept run
    rcases Walk.run_bind_error.mp run with inner | ⟨_, middle, -, late⟩
    · exact raises_place raises before error after kept inner
    · obtain ⟨schema, widened⟩ := setting.widened_reference nullable definition.name
      rw [widened] at late
      exact (Walk.run_pure_error late).elim
  | false =>
    rw [occurrence_inline hoists]
    split
    next again => exact Rules.Raises.throw (endless hoists again)
    next fresh =>
      apply (raises fresh).bind (valid fresh)
      intro written current _ shown error after run
      obtain ⟨schema, widened, -⟩ := shown.2.widened shown.1 setting nullable
      rw [widened] at run
      exact (Walk.run_pure_error run).elim

end Raises

variable (setting) in
/-- Laws of the errors that are allowed of a reference, with some names on the chain. The last one hands up the errors
of what a named type mentions; all others are about errors of the reference itself. -/
structure Blame where
  allowed : List Name → TypeSpec → CompileError → Prop
  element {chain : List Name} {element : TypeSpec} {required nullable : Bool} {error : CompileError} :
    allowed chain element error → allowed chain (.array element required nullable) error
  unclassified {chain : List Name} {name : String} {required nullable : Bool} {error : CompileError} :
    classify setting.catalog setting.registry name = .error error → allowed chain (.named name required nullable) error
  nested {chain : List Name} {name : String} {required nullable : Bool} {entry : Entry} :
    classify setting.catalog setting.registry name = .ok (.entry .input entry) →
    allowed chain (.named name required nullable)
      (.invalidReference (.written (.text (TypeSpec.named name required nullable).render)) (.nestedInput name))
  fragment {chain : List Name} {name : String} {required nullable : Bool} {fragment : Value} {fault : Fault} :
    setting.catalog.Supplies setting.registry name fragment →
    setting.widened nullable (.ofValue fragment) = .error fault →
    allowed chain (.named name required nullable) (.unusable fault)
  endless {chain : List Name} {name : String} {required nullable : Bool} {definition : Definition} :
    setting.hoisting = false →
    classify setting.catalog setting.registry name = .ok (.entry definition.kind (.checked definition)) →
    definition.kind.isNamed = true → (Entry.checked definition).name ∈ chain →
    allowed chain (.named name required nullable)
      (.unterminatedRecursion (chain ++ [(Entry.checked definition).name]))
  misread {chain : List Name} {name : String} {required nullable : Bool} {definition : Definition}
    {misreading : Misreading} :
    classify setting.catalog setting.registry name = .ok (.entry definition.kind (.checked definition)) →
    definition.kind.isNamed = true → definition.Reads (.error misreading) →
    allowed chain (.named name required nullable) (.ofMisreading misreading)
  inside {chain : List Name} {name : String} {required nullable : Bool} {definition : Definition} {spec : TypeSpec}
    {error : CompileError} :
    classify setting.catalog setting.registry name = .ok (.entry definition.kind (.checked definition)) →
    definition.kind.isNamed = true → (Entry.checked definition).name ∉ chain → definition.Mentions spec →
    allowed (chain ++ [(Entry.checked definition).name]) spec error → allowed chain (.named name required nullable) error

namespace Blame

variable (blame : setting.Blame) (built : setting.catalog.OfDefinitions) {rules : Rules}
  (objects : ∀ chain spec, rules.Ensures (fun schema _ => schema.IsObject) (compileSpec setting chain spec))

include built objects in
/-- Where all schemas are objects, a reference only fails with an error that is allowed of it. -/
theorem raises_compileSpec (chain : List Name) (spec : TypeSpec) :
    rules.Raises (blame.allowed chain spec) (compileSpec setting chain spec) := by
  induction chain using setting.chain_induction generalizing spec with
  | step chain ih =>
    induction spec with
    | array element required nullable inner =>
      apply raises_memoized
      refine (inner.weaken fun _ => blame.element).of_last ?_
      intro items current error after run
      rw [widen_eq] at run
      obtain ⟨schema, widened, -⟩ := (Schema.isWidenable_array items).widened trivial setting nullable
      rw [widened] at run
      exact Walk.run_pure_error run
    | named name required nullable =>
      apply raises_memoized
      cases built.denotation setting.registry name with
      | nothing classified =>
        rw [compileName_error classified]
        exact Rules.Raises.throw (blame.unclassified classified)
      | input classified =>
        rw [compileName_input classified]
        exact Rules.Raises.throw (blame.nested classified)
      | fragment supplies =>
        rw [compileName_fragment supplies]
        intro before error after _ run
        obtain ⟨fault, failed, rfl, -⟩ := Walk.run_ofAccess_error.mp run
        exact blame.fragment supplies failed
      | @type definition named classified =>
        rw [compileName_named named classified]
        have noInput : definition.kind ≠ .input := fun input => by simp [input, Kind.isNamed] at named
        have inner := objects (chain ++ [(Entry.checked definition).name])
        apply raises_occurrence
        · exact fun inline again => blame.endless inline classified named again
        · intro fresh
          refine (Rules.Ensures.definitionBody definition (fun _ _ _ _ _ object => object)
            fun spec _ => inner spec).weaken ?_
          exact fun body after shown => shown.isWidenable named
        · intro fresh
          refine Rules.Raises.definitionBody definition noInput ?_ (fun spec _ => inner spec) fun spec mentions => ?_
          · exact fun misreading reads => blame.misread classified named reads
          · have further := ih _ (mem_of_classify_eq classified) fresh spec
            exact further.weaken fun _ => blame.inside classified named fresh mentions

structure Covers (value : Value) (refused : CompileError → Prop) : Prop where
  misread {misreading : Misreading} : TypeSpec.read false value = .error misreading → refused (.ofMisreading misreading)
  reference {spec : TypeSpec} {error : CompileError} : TypeSpec.read false value = .ok spec →
    (∀ entry, classify setting.catalog setting.registry spec.base = .ok (.entry .input entry) → spec.isArray = true) →
    blame.allowed [] spec error → refused error
  nullable {name : String} {required : Bool} {entry : Entry} :
    TypeSpec.read false value = .ok (.named name required true) →
    classify setting.catalog setting.registry name = .ok (.entry .input entry) →
    refused (.invalidReference (.written (.text (TypeSpec.named name required true).render)) .nullableInput)
  parameter {name : String} {required : Bool} {definition : Definition} {misreading : Misreading} :
    TypeSpec.read false value = .ok (.named name required false) →
    classify setting.catalog setting.registry name = .ok (.entry .input (.checked definition)) →
    definition.Reads (.error misreading) → refused (.ofMisreading misreading)
  mentioned {name : String} {required : Bool} {definition : Definition} {spec : TypeSpec} {error : CompileError} :
    TypeSpec.read false value = .ok (.named name required false) →
    classify setting.catalog setting.registry name = .ok (.entry .input (.checked definition)) →
    definition.Mentions spec → blame.allowed [] spec error → refused error

include built objects in
/-- Then what is written only fails with an error that is allowed of it. -/
theorem raises_ofReferent {value : Value} {refused : CompileError → Prop} (covers : blame.Covers value refused) :
    rules.Raises refused (Compiled.ofReferent setting (.written value)) := by
  have raises := blame.raises_compileSpec built objects []
  apply Rules.Raises.reading fun misreading => covers.misread
  intro spec read
  have single (noInput : ∀ entry, classify setting.catalog setting.registry spec.base = .ok (.entry .input entry) →
      spec.isArray = true) :
      rules.Raises refused (compileSpec setting [] spec >>= fun schema => pure (Compiled.single schema)) :=
    Rules.Raises.of_last ((raises spec).weaken fun _ => covers.reference read noInput) fun _ _ _ _ => Walk.run_pure_error
  cases spec with
  | array element required nullable => exact single fun _ _ => rfl
  | named name required nullable =>
    have noInput {found : Classified} (classified : classify setting.catalog setting.registry name = .ok found)
        (other : ∀ entry, found ≠ .entry .input entry) :
        rules.Raises refused (Compiled.ofSpec setting (.named name required nullable)) := by
      rw [Compiled.ofSpec_named classified other]
      refine single fun entry same => ?_
      cases classified.symm.trans same
      exact absurd rfl (other entry)
    cases built.denotation setting.registry name with
    | nothing classified =>
      rw [Compiled.ofSpec_error classified]
      refine Rules.Raises.throw (covers.reference read (fun entry same => ?_) (blame.unclassified classified))
      cases classified.symm.trans same
    | fragment supplies =>
      cases supplies with
      | primitive classified | scalar classified => exact noInput classified nofun
    | type named classified =>
      refine noInput classified fun entry same => ?_
      rw [(Classified.entry.inj same).1] at named
      cases named
    | @input label parameters classified =>
      rw [Compiled.ofSpec_input classified]
      cases nullable with
      | true => exact Rules.Raises.throw (covers.nullable read classified)
      | false =>
        refine Rules.Raises.of_last (Rules.Raises.parameters ?_ (fun spec _ => objects [] spec) fun spec mentions => ?_)
          fun _ _ _ _ => Walk.run_pure_error
        · exact fun misreading => covers.parameter read classified
        · exact (raises spec).weaken fun _ => covers.mentioned read classified mentions

end Blame

variable (built : setting.catalog.OfDefinitions) (registryRegular : setting.registry.IsRegular)
  (catalogRegular : setting.catalog.IsRegular)

variable (setting) in
def explaining (registryRegular : setting.registry.IsRegular) (catalogRegular : setting.catalog.IsRegular) :
    setting.Blame where
  allowed := setting.Explains
  element := .element
  unclassified := .unclassified
  nested := .nested
  fragment {_ _ _ nullable _ _} supplies failed := by
    obtain ⟨schema, widened, -⟩ := widened_fragment registryRegular catalogRegular nullable supplies
    cases failed.symm.trans widened
  endless := .endless
  misread := .misread
  inside := .inside

include catalogRegular in
/-- A reference only fails for a reason that can be given without going through the walk. -/
theorem raises_compileSpec (chain : List Name) (spec : TypeSpec) :
    ((setting.objects built registryRegular.holdsObjects).rules chain).Raises (setting.Explains chain spec)
      (compileSpec setting chain spec) :=
  (setting.explaining registryRegular catalogRegular).raises_compileSpec built
    (fun chain spec => (setting.objects built registryRegular.holdsObjects).ensures_compileSpec chain spec trivial)
    chain spec

variable (setting) in
/-- Why a compilation of what is written fails. -/
inductive Refuses (value : Value) : CompileError → Prop where
  | misread {misreading} (read : TypeSpec.read false value = .error misreading) : Refuses value (.ofMisreading misreading)
  | reference {spec error} (read : TypeSpec.read false value = .ok spec)
      (noInput : ∀ entry, classify setting.catalog setting.registry spec.base = .ok (.entry .input entry) →
        spec.isArray = true) (explains : setting.Explains [] spec error) : Refuses value error
  | nullable {name required entry} (read : TypeSpec.read false value = .ok (.named name required true))
      (classified : classify setting.catalog setting.registry name = .ok (.entry .input entry)) :
      Refuses value (.invalidReference (.written (.text (TypeSpec.named name required true).render)) .nullableInput)
  | parameter {name required definition misreading} (read : TypeSpec.read false value = .ok (.named name required false))
      (classified : classify setting.catalog setting.registry name = .ok (.entry .input (.checked definition)))
      (reads : definition.Reads (.error misreading)) : Refuses value (.ofMisreading misreading)
  | mentioned {name required definition spec error} (read : TypeSpec.read false value = .ok (.named name required false))
      (classified : classify setting.catalog setting.registry name = .ok (.entry .input (.checked definition)))
      (mentions : definition.Mentions spec) (explains : setting.Explains [] spec error) : Refuses value error

theorem Refuses.inline {value : Value} {names : List Name}
    (refuses : setting.Refuses value (.unterminatedRecursion names)) : setting.hoisting = false := by
  generalize same : CompileError.unterminatedRecursion names = error at refuses
  cases refuses with
  | misread | parameter => exact absurd same.symm ofMisreading_ne_unterminated
  | nullable => cases same
  | reference _ _ explains | mentioned _ _ _ explains => exact Explains.inline (same ▸ explains)

include catalogRegular in
theorem raises_ofReferent (value : Value) :
    ((setting.objects built registryRegular.holdsObjects).rules []).Raises (setting.Refuses value)
      (Compiled.ofReferent setting (.written value)) :=
  (setting.explaining registryRegular catalogRegular).raises_ofReferent built
    (fun chain spec => (setting.objects built registryRegular.holdsObjects).ensures_compileSpec chain spec trivial)
    { misread := .misread
      reference := .reference
      nullable := .nullable
      parameter := .parameter
      mentioned := .mentioned }

end Setting

end Schemata
