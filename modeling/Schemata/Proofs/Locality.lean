import Schemata.Proofs.DialectTables
import Schemata.Proofs.EntryPoints

/-! What a compilation looks at. Only the names met on the way from what was given are looked up, in the
registry first and then in the catalog. So whatever else these hold, and in which order, can neither
show in an answer nor in an error nor in a table. -/

namespace Schemata

namespace Catalog

variable (catalog : Catalog) (registry : Registry)

/-- The names that are looked up for a reference, inside the types that it leads to as well. -/
inductive LooksUp : TypeSpec → String → Prop where
  | base (spec : TypeSpec) : LooksUp spec spec.base
  | inside {spec other : TypeSpec} {kind : Kind} {entry : Entry} {name : String}
      (classified : classify catalog registry spec.base = .ok (.entry kind entry)) (named : kind.isNamed = true)
      (mentions : entry.MayMention other) (looksUp : LooksUp other name) : LooksUp spec name

/-- The names that are looked up in a call. -/
inductive Consults : Referent → String → Prop where
  | reference {value : Value} {spec : TypeSpec} {name : String} (read : TypeSpec.read false value = .ok spec)
      (looksUp : catalog.LooksUp registry spec name) : Consults (.written value) name
  | parameter {value : Value} {label name : String} {required : Bool} {entry : Entry} {spec : TypeSpec}
      (read : TypeSpec.read false value = .ok (.named label required false))
      (classified : classify catalog registry label = .ok (.entry .input entry))
      (mentions : entry.MayMention spec) (looksUp : catalog.LooksUp registry spec name) : Consults (.written value) name
  | definition {definition : Definition} {spec : TypeSpec} {name : String} (mentions : definition.Mentions spec)
      (looksUp : catalog.LooksUp registry spec name) : Consults (.entry (.checked definition)) name

variable {catalog registry}

theorem LooksUp.of_element {element : TypeSpec} {required nullable : Bool} {name : String}
    (looksUp : catalog.LooksUp registry element name) :
    catalog.LooksUp registry (.array element required nullable) name := by
  cases looksUp with
  | base => exact .base (.array element required nullable)
  | inside classified named mentions inner => exact .inside classified named mentions inner

/-- Names that lead to each other only are looked up for nothing but each other. -/
theorem LooksUp.among {names : String → Prop} {spec : TypeSpec} {name : String}
    (closed : ∀ label kind entry other, names label → classify catalog registry label = .ok (.entry kind entry) →
      kind.isNamed = true → entry.MayMention other → names other.base)
    (begins : names spec.base) (looksUp : catalog.LooksUp registry spec name) : names name := by
  induction looksUp with
  | base => exact begins
  | inside classified named mentions _ ih => exact ih (closed _ _ _ _ begins classified named mentions)

end Catalog

namespace Setting

/-- A setting that differs at most in its catalog and its registry, and in its base where that is not used. -/
structure Resembles (setting twin : Setting) : Prop where
  hoisting : twin.hoisting = setting.hoisting
  flagged : twin.dialect.flagged = setting.dialect.flagged
  base : setting.hoisting = true → twin.dialect.base = setting.dialect.base

def Shares (setting twin : Setting) (name : String) : Prop :=
  classify twin.catalog twin.registry name = classify setting.catalog setting.registry name

namespace Resembles

variable {setting twin : Setting}

theorem refl (setting : Setting) : setting.Resembles setting := ⟨rfl, rfl, fun _ => rfl⟩

variable (resembles : setting.Resembles twin)

include resembles

theorem widened_eq : twin.widened = setting.widened := by
  funext nullable schema
  rw [widened, widened, resembles.flagged]

theorem widen_eq : twin.widen = setting.widen := by
  funext nullable schema
  rw [Setting.widen_eq, Setting.widen_eq, resembles.widened_eq]

theorem body_eq : twin.body = setting.body := by
  have field : twin.field = setting.field := by
    funext compile field
    rw [Setting.field, Setting.field, resembles.widen_eq]
  have handField : twin.handField = setting.handField := by
    funext compile member
    rw [Setting.handField, Setting.handField, resembles.widen_eq]
  funext compile kind entry
  cases entry with
  | checked definition =>
    rw [body, body]
    cases definition with
    | product => rw [definitionBody, definitionBody, field]
    | scalar | sum | map | union | input => rfl
  | handwritten shape =>
    rw [body, body]
    cases kind with
    | product => rw [shapeBody, shapeBody, handField]
    | scalar | sum | map | union | input => rfl

theorem occurrence_eq : twin.occurrence = setting.occurrence := by
  funext chain entry nullable body
  rw [occurrence, occurrence, resembles.hoisting, resembles.widen_eq]
  cases hoists : setting.hoisting with
  | false => rfl
  | true => rw [resembles.base hoists]

theorem agrees_body {chain : List Name} {entry : Entry}
    (references : ∀ spec, entry.MayMention spec →
      Walk.Agrees (Walk.Matches Eq) (compileSpec setting chain spec) (compileSpec twin chain spec)) (kind : Kind) :
    Walk.Agrees (Walk.Matches Eq) (compileBody setting chain kind entry) (compileBody twin chain kind entry) := by
  rw [compileBody, compileBody, resembles.body_eq]
  cases entry with
  | checked definition =>
    apply Walk.Agrees.definitionBody
    intro spec mentions
    apply references
    intro other same
    cases same
    exact mentions
  | handwritten shape =>
    apply Walk.Agrees.shapeBody
    intro spec
    exact references spec (Entry.mayMention_handwritten shape spec)

theorem agrees_occurrence {chain : List Name} {entry : Entry} {nullable : Bool} {walk twinWalk : Walk Schema}
    (bodies : entry.name ∉ chain → Walk.Agrees (Walk.Matches Eq) walk twinWalk) :
    Walk.Agrees (Walk.Matches Eq) (setting.occurrence chain entry nullable fun _ => walk)
      (twin.occurrence chain entry nullable fun _ => twinWalk) := by
  rw [resembles.occurrence_eq]
  exact fun first second matched => matched.occurrence fun fresh => bodies fresh first second matched

/-- A reference compiles alike if all names that are looked up for it stand for the same things. -/
theorem agrees_compileSpec (chain : List Name) {spec : TypeSpec}
    (shares : ∀ name, setting.catalog.LooksUp setting.registry spec name → setting.Shares twin name) :
    Walk.Agrees (Walk.Matches Eq) (compileSpec setting chain spec) (compileSpec twin chain spec) := by
  -- a body is compiled with its type open, and a type is opened once at most; the inner induction is for arrays
  induction chain using setting.chain_induction generalizing spec with
  | step chain ih =>
    induction spec with
    | array element required nullable inner =>
      have items := inner fun name looksUp => shares name looksUp.of_element
      refine Walk.Agrees.memoized (items.bind fun items => ?_)
      rw [resembles.widen_eq, Setting.widen_eq]
      exact Walk.Agrees.ofAccess _
    | named name required nullable =>
      have same : setting.Shares twin name := shares name (.base (.named name required nullable))
      refine Walk.Agrees.memoized ?_
      cases denotation setting.catalog setting.registry name with
      | nothing classified =>
        rw [compileName_error classified, compileName_error (same.trans classified)]
        exact Walk.Agrees.throw _
      | primitive classified =>
        rw [compileName_primitive classified, compileName_primitive (same.trans classified), resembles.widened_eq]
        exact Walk.Agrees.ofAccess _
      | input classified =>
        rw [compileName_input classified, compileName_input (same.trans classified)]
        exact Walk.Agrees.throw _
      | scalar classified =>
        rw [compileName_scalar classified, compileName_scalar (same.trans classified), resembles.widened_eq]
        exact (Walk.Agrees.ofAccess _).bind fun fragment => Walk.Agrees.ofAccess _
      | type named classified =>
        rw [compileName_named named classified, compileName_named named (same.trans classified)]
        refine resembles.agrees_occurrence fun fresh => ?_
        refine resembles.agrees_body (fun spec mentions => ?_) _
        exact ih _ (mem_of_classify_eq classified) fresh fun name looksUp =>
          shares name (.inside classified named mentions looksUp)

theorem agrees_input {entry : Entry}
    (shares : ∀ spec name, entry.MayMention spec → setting.catalog.LooksUp setting.registry spec name →
      setting.Shares twin name) :
    Walk.Agrees (Walk.Matches Eq) (Compiled.ofInput setting entry) (Compiled.ofInput twin entry) := by
  refine (Walk.Agrees.parameters entry fun spec mentions => ?_).bind fun records => Walk.Agrees.pure _
  exact resembles.agrees_compileSpec [] fun name => shares spec name mentions

theorem agrees_definition {definition : Definition}
    (shares : ∀ spec name, definition.Mentions spec → setting.catalog.LooksUp setting.registry spec name →
      setting.Shares twin name) :
    Walk.Agrees (Walk.Matches Eq) (Compiled.ofDefinition setting definition) (Compiled.ofDefinition twin definition) := by
  have mayMention (spec : TypeSpec) (name : String) (mentions : (Entry.checked definition).MayMention spec) :
      setting.catalog.LooksUp setting.registry spec name → setting.Shares twin name :=
    shares spec name (mentions definition rfl)
  by_cases named : definition.kind.isNamed = true
  · rw [Compiled.ofDefinition_named named, Compiled.ofDefinition_named named]
    refine (resembles.agrees_occurrence fun _ => ?_).bind fun schema => Walk.Agrees.pure _
    refine resembles.agrees_body (fun spec mentions => ?_) _
    exact resembles.agrees_compileSpec _ fun name => mayMention spec name mentions
  · cases definition with
    | product | sum | map | union => exact absurd rfl named
    | scalar name fragment => exact Walk.Agrees.pure _
    | input name parameters => exact resembles.agrees_input mayMention

/-- A call does the same if all names that are looked up in it stand for the same things. -/
theorem agrees_ofReferent {given : Referent}
    (shares : ∀ name, setting.catalog.Consults setting.registry given name → setting.Shares twin name) :
    Walk.Agrees (Walk.Matches Eq) (Compiled.ofReferent setting given) (Compiled.ofReferent twin given) := by
  cases given with
  | entry entry =>
    cases entry with
    | handwritten shape => exact Walk.Agrees.throw _
    | checked definition =>
      exact resembles.agrees_definition fun spec name mentions looksUp => shares name (.definition mentions looksUp)
  | written value =>
    apply Walk.Agrees.reading
    intro spec read
    have single : Walk.Agrees (Walk.Matches Eq) (compileSpec setting [] spec >>= fun schema => pure (Compiled.single schema))
        (compileSpec twin [] spec >>= fun schema => pure (Compiled.single schema)) := by
      refine (resembles.agrees_compileSpec [] fun name looksUp => ?_).bind fun schema => Walk.Agrees.pure _
      exact shares name (.reference read looksUp)
    cases spec with
    | array element required nullable => exact single
    | named label required nullable =>
      have same : setting.Shares twin label := shares label (.reference read (.base (.named label required nullable)))
      rcases classify_cases setting.catalog setting.registry label with
        ⟨error, classified⟩ | ⟨entry, classified⟩ | ⟨found, classified, noInput⟩
      all_goals replace same := same.trans classified
      · rw [Compiled.ofSpec_error classified, Compiled.ofSpec_error same]
        exact Walk.Agrees.throw error
      · rw [Compiled.ofSpec_input classified, Compiled.ofSpec_input same]
        cases nullable with
        | true => exact Walk.Agrees.throw _
        | false =>
          exact resembles.agrees_input fun spec name mentions looksUp =>
            shares name (.parameter read classified mentions looksUp)
      · rw [Compiled.ofSpec_named classified noInput, Compiled.ofSpec_named same noInput]
        exact single

end Resembles

end Setting

def Call.Same (call twin : Call α) : Prop :=
  twin.outcome = call.outcome ∧ ∀ dialect, twin.compiler.table dialect = call.compiler.table dialect

namespace Compiler

variable {compiler twin : Compiler} {given : Referent} {mode called : Mode}

/-- Calls that do the same, begun with the same table, have one outcome and leave the same table. -/
theorem compile_agrees (table : twin.table (twin.dialect called) = compiler.table (compiler.dialect mode))
    (agrees : Walk.Agrees (Walk.Matches Eq) (Compiled.ofReferent (compiler.setting mode) given)
      (Compiled.ofReferent (twin.setting called) given)) :
    (twin.compile given called).outcome = (compiler.compile given mode).outcome ∧
      (twin.compile given called).compiler.table (twin.dialect called) =
        (compiler.compile given mode).compiler.table (compiler.dialect mode) := by
  have alike := agrees (compiler.start given mode) (twin.start given called) ⟨table.symm, rfl⟩
  rw [compile_eq, compile_eq]
  generalize (Compiled.ofReferent (compiler.setting mode) given).run _ = here at alike
  generalize (Compiled.ofReferent (twin.setting called) given).run _ = there at alike
  cases alike with
  | ok matched =>
    refine ⟨rfl, ?_⟩
    simp only [table_setTable_self]
    exact matched.1.symm
  | error => exact ⟨rfl, table⟩

theorem compile_local (base : twin.base? = compiler.base?) (tables : ∀ dialect, twin.table dialect = compiler.table dialect)
    (shares : ∀ name, compiler.catalog.Consults compiler.registry given name →
      classify twin.catalog twin.registry name = classify compiler.catalog compiler.registry name) :
    (compiler.compile given mode).Same (twin.compile given mode) := by
  have dialect : twin.dialect mode = compiler.dialect mode := congrArg (Dialect.of · mode) base
  have resembles : (compiler.setting mode).Resembles (twin.setting mode) := by
    refine ⟨rfl, ?_, fun _ => ?_⟩
    · exact congrArg Dialect.flagged dialect
    · exact congrArg Dialect.base dialect
  have begins : twin.table (twin.dialect mode) = compiler.table (compiler.dialect mode) := by
    rw [dialect]
    exact tables _
  obtain ⟨outcome, own⟩ := compile_agrees begins (resembles.agrees_ofReferent shares)
  refine ⟨outcome, fun other => ?_⟩
  by_cases same : other = compiler.dialect mode
  · rw [same]
    rwa [dialect] at own
  · have apart (compiler : Compiler) (different : other ≠ compiler.dialect mode) :
        (compiler.compile given mode).compiler.table other = compiler.table other :=
      @other_tables_of_call compiler given mode (.compile given mode) rfl other different
    rw [apart compiler same, apart twin (dialect ▸ same)]
    exact tables other

/-- A call looks at the registry and the catalog under the names that it consults, and nowhere else. So it
makes no difference in which order types and primitives were registered, or what else was. -/
theorem calls_are_local (catalog other : Catalog) (registry registryToo : Registry) (mode : Mode) (base? : Option String)
    (given : Referent) (called : Mode) :
    let call := (new catalog registry mode base?).compile given called
    let twin := (new other registryToo mode base?).compile given called
    ((∀ name, catalog.Consults registry given name →
      registryToo.get? name = registry.get? name ∧ other.get? name = catalog.get? name) → call.Same twin) ∧
    ∀ types primitives, other.OfDefinitions → (Record.names registryToo.fragments).Nodup →
      (catalog.entries ++ types).Perm other.entries → (registry.fragments ++ primitives).Perm registryToo.fragments →
      (∀ name, catalog.Consults registry given name → name ∉ Record.names types ∧ name ∉ Record.names primitives) →
      call.Same twin := by
  intro call twin
  have enough (same : ∀ name, catalog.Consults registry given name →
      registryToo.get? name = registry.get? name ∧ other.get? name = catalog.get? name) : call.Same twin := by
    refine compile_local rfl (fun _ => rfl) fun name consults => ?_
    obtain ⟨primitive, type⟩ := same name consults
    change classify other registryToo name = classify catalog registry name
    rw [classify, classify, primitive, type]
  refine ⟨enough, fun types primitives built unique moved movedToo unrelated => enough fun name consults => ?_⟩
  obtain ⟨noType, noPrimitive⟩ := unrelated name consults
  exact ⟨Record.find?_of_perm unique movedToo noPrimitive, Record.find?_of_perm built.identifiers_nodup moved noType⟩

/-- Two types that refer to each other, in both orders, with another type and another primitive beside
them. Hoisted they compile, and written out they do not. -/
theorem calls_are_local_of_pair :
    let field (type : String) : Field := ⟨"other", .text type, none, none, none⟩
    let first : Definition := .product "First" [field "[second]"] none none "application/json"
    let second : Definition := .product "Second" [field "first?"] none none "application/json"
    let spare : Definition := .sum "Spare" ["a"]
    let catalog : Catalog := ⟨[("first", .checked first), ("second", .checked second)],
      [(.text "First", "first"), (.text "Second", "second")]⟩
    let other : Catalog := ⟨[("second", .checked second), ("spare", .checked spare), ("first", .checked first)],
      [(.text "Second", "second"), (.text "Spare", "spare"), (.text "First", "first")]⟩
    let registry := Registry.builtins.register "money" (.record [])
    let call := (new catalog .builtins .jsonSchema none).compile (.written (.text "first"))
    let twin := (new other registry .jsonSchema none).compile (.written (.text "first"))
    other.OfDefinitions ∧ Record.names ((call .refSchema).compiler.schemasFor .refSchema) = ["Second", "First"] ∧
      (call .jsonSchema).outcome.toOption.isNone = true ∧
      (call .refSchema).Same (twin .refSchema) ∧ (call .jsonSchema).Same (twin .jsonSchema) := by
  intro field first second spare catalog other registry call twin
  have built : other.OfDefinitions :=
    Catalog.OfDefinitions.empty.register_all [("second", second), ("spare", spare), ("first", first)] rfl
  have forth : TypeSpec.read true (.text "[second]") = .ok (.array (.named "second" false false) false false) :=
    toOption_eq_some.mp (by decide +kernel)
  have back : TypeSpec.read true (.text "first?") = .ok (.named "first" false true) :=
    toOption_eq_some.mp (by decide +kernel)
  have closed (label : String) (kind : Kind) (entry : Entry) (spec : TypeSpec) (either : label ∈ ["first", "second"])
      (classified : classify catalog .builtins label = .ok (.entry kind entry)) (mentions : entry.MayMention spec) :
      spec.base ∈ ["first", "second"] := by
    simp only [List.mem_cons, List.not_mem_nil, or_false] at either
    rcases either with rfl | rfl
    · cases (show classify catalog .builtins "first" = .ok (.entry .product (.checked first)) from rfl).symm.trans classified
      obtain ⟨own, member, -, read⟩ := mentions first rfl
      cases List.mem_singleton.mp member
      cases forth.symm.trans read
      decide
    · cases (show classify catalog .builtins "second" = .ok (.entry .product (.checked second)) from rfl).symm.trans classified
      obtain ⟨own, member, -, read⟩ := mentions second rfl
      cases List.mem_singleton.mp member
      cases back.symm.trans read
      decide
  have begins : TypeSpec.read false (.text "first") = .ok (.named "first" false false) :=
    toOption_eq_some.mp (by decide +kernel)
  have among (name : String) (consults : catalog.Consults .builtins (.written (.text "first")) name) :
      name ∈ ["first", "second"] := by
    cases consults with
    | reference read looksUp =>
      cases begins.symm.trans read
      exact looksUp.among (fun label kind entry spec either classified _ => closed label kind entry spec either classified)
        (by decide)
    | parameter read classified =>
      cases begins.symm.trans read
      cases classified
  have hoisted : (call .refSchema).Same (twin .refSchema) := by
    refine (calls_are_local catalog other .builtins registry .jsonSchema none (.written (.text "first")) .refSchema).2
      [("spare", .checked spare)] [("money", .record [])] built (by decide +kernel) ?_ (.refl _) fun name consults => ?_
    · exact (List.perm_append_singleton _ [_, _]).symm
    · have apart : ∀ name ∈ ["first", "second"], name ∉ ["spare"] ∧ name ∉ ["money"] := by decide
      exact apart name (among name consults)
  have inline : (call .jsonSchema).Same (twin .jsonSchema) := by
    refine (calls_are_local catalog other .builtins registry .jsonSchema none (.written (.text "first")) .jsonSchema).1
      fun name consults => ?_
    have either := among name consults
    simp only [List.mem_cons, List.not_mem_nil, or_false] at either
    rcases either with rfl | rfl <;> exact ⟨rfl, rfl⟩
  exact ⟨built, by decide +kernel, by decide +kernel, hoisted, inline⟩

end Compiler

end Schemata
