import Schemata.Proofs.InlinedTypes
import Schemata.Proofs.WalkSimulation

/-! Hoisting follows writing out. Both walks meet the same references in the same order. Where the table
has a type already, writing it out again finds all its references among those that are remembered, so
neither walk can fail there; everywhere else they take the same step. -/

namespace Schemata

namespace Setting

variable {setting : Setting}

def hoisted (setting : Setting) : Setting := { setting with hoisting := true }

def IsKnown (progress : Progress) (spec : TypeSpec) : Prop :=
  (progress.known.lookup spec.optional).isSome = true

/-- Two progresses at the same point, the second of them hoisting. What its table has can be written out
of what the first remembers. -/
structure Mirrors (setting : Setting) (first second : Progress) : Prop where
  known : ∀ entry ∈ first.known, setting.Inlines entry.1 entry.2
  memory : ∀ spec, Option.Rel Schema.Level (first.known.lookup spec) (second.known.lookup spec)
  table : ∀ name ∈ Record.names second.table, ∃ definition body,
    .checked definition ∈ setting.catalog.toList ∧ definition.name = name ∧ definition.kind.isNamed = true ∧
      setting.ShowsBody (fun spec schema => setting.Inlines spec schema ∧ IsKnown first spec) definition body

def Renders (setting : Setting) (spec : TypeSpec) (schema other : Schema) : Prop :=
  setting.Inlines spec schema ∧ schema.Level other

theorem Mirrors.silent {first second : Progress} (mirrors : setting.Mirrors first second) (events : List Event) :
    setting.Mirrors first { second with events } :=
  ⟨mirrors.known, mirrors.memory, mirrors.table⟩

/-- A body that has been written out may come into the table. -/
theorem Mirrors.hoist {first second : Progress} (mirrors : setting.Mirrors first second) {definition : Definition}
    {body : Schema} (held : .checked definition ∈ setting.catalog.toList) (named : definition.kind.isNamed = true)
    (shown : setting.ShowsBody (fun spec schema => setting.Inlines spec schema ∧ IsKnown first spec) definition body)
    (other : Schema) (events : List Event) :
    setting.Mirrors first { second with table := Record.set second.table definition.name other, events } := by
  refine ⟨mirrors.known, mirrors.memory, fun name listed => ?_⟩
  rcases Record.eq_or_mem_names listed with rfl | old
  · exact ⟨definition, body, held, rfl, named, shown⟩
  · exact mirrors.table name old

private theorem Mirrors.remember {first second : Progress} (mirrors : setting.Mirrors first second) {spec : TypeSpec}
    {schema other : Schema} (renders : setting.Renders spec schema other) :
    setting.Mirrors { first with known := (spec.optional, schema) :: first.known }
      { second with known := (spec.optional, other) :: second.known } := by
  refine ⟨List.forall_mem_cons.mpr ⟨Inlines.optional.mpr renders.1, mirrors.known⟩, fun asked => ?_, fun name listed => ?_⟩
  · simp only [List.lookup_cons]
    split
    · exact .some renders.2
    · exact mirrors.memory asked
  · obtain ⟨definition, body, held, same, named, shown⟩ := mirrors.table name listed
    refine ⟨definition, body, held, same, named, shown.imp fun spec schema _ own => ?_⟩
    exact ⟨own.1, isSome_lookup_cons own.2⟩

theorem leads_memoized {spec : TypeSpec} {walk twin : Walk Schema}
    (leads : Walk.Leads setting.Mirrors (setting.Renders spec) walk twin) :
    Walk.Leads setting.Mirrors (setting.Renders spec) (Walk.memoized spec walk) (Walk.memoized spec twin) := by
  intro first second mirrors
  have memory := mirrors.memory spec.optional
  simp only [Walk.memoized, EStateM.run_bind, EStateM.run_get]
  cases found : first.known.lookup spec.optional with
  | some schema =>
    rw [found] at memory
    have inlines := Inlines.optional.mp (mirrors.known _ (Record.mem_of_lookup found))
    cases other : second.known.lookup spec.optional with
    | none => rw [other] at memory; cases memory
    | some twin =>
      rw [other] at memory
      cases memory with
      | some level => exact .ok mirrors ⟨inlines, level⟩
  | none =>
    rw [found] at memory
    cases other : second.known.lookup spec.optional with
    | some twin => rw [other] at memory; cases memory
    | none =>
      have remembers (schema other : Schema) (renders : setting.Renders spec schema other) :
          Walk.Leads setting.Mirrors (setting.Renders spec)
            (modify (fun progress => { progress with known := (spec.optional, schema) :: progress.known }) >>=
              fun _ => pure schema)
            (modify (fun progress => { progress with known := (spec.optional, other) :: progress.known }) >>=
              fun _ => pure other) :=
        fun _ _ mirrors => .ok (mirrors.remember renders) renders
      exact Walk.Leads.bind leads remembers first second mirrors

theorem isKnown_of_run {chain : List Name} {spec : TypeSpec} {before after : Progress} {schema : Schema}
    (run : (compileSpec setting chain spec).run before = .ok schema after) : IsKnown after spec := by
  have memoized {walk : Walk Schema} (run : (Walk.memoized spec walk).run before = .ok schema after) :
      IsKnown after spec := by
    obtain ⟨progress, _, got, run⟩ := Walk.run_bind_ok.mp run
    cases got
    split at run
    next known =>
      obtain ⟨rfl, rfl⟩ := Walk.run_pure_ok.mp run
      rw [IsKnown, known]
      rfl
    next =>
      obtain ⟨value, middle, -, run⟩ := Walk.run_bind_ok.mp run
      obtain ⟨_, _, modified, run⟩ := Walk.run_bind_ok.mp run
      cases modified
      obtain ⟨rfl, rfl⟩ := Walk.run_pure_ok.mp run
      rw [IsKnown, List.lookup_cons_self]
      rfl
  cases spec with
  | named => exact memoized run
  | array => exact memoized run

private def unmoved (progress : Progress) : Rules where
  invariant := (· = progress)
  growth _ _ := True
  refl _ := trivial
  trans _ _ := trivial

/-- Writing out again what the table has only looks up what is remembered. -/
private theorem run_again {chain : List Name} {definition : Definition} {kind : Kind} {progress : Progress} {body : Schema}
    (known : ∀ entry ∈ progress.known, setting.Inlines entry.1 entry.2)
    (shown : setting.ShowsBody (fun spec schema => setting.Inlines spec schema ∧ IsKnown progress spec)
      definition body) :
    (compileBody setting chain kind (.checked definition)).run progress = .ok body progress := by
  have recalls (spec : TypeSpec) (schema : Schema) (inlines : setting.Inlines spec schema)
      (isKnown : IsKnown progress spec) : (unmoved progress).Yields (compileSpec setting chain spec) schema := by
    obtain ⟨remembered, found⟩ := Option.isSome_iff_exists.mp isKnown
    have same := (Inlines.optional.mp (known _ (Record.mem_of_lookup found))).unique inlines
    cases same
    intro before kept
    cases show before = progress from kept
    have run {walk : Walk Schema} : (Walk.memoized spec walk).run progress = .ok remembered progress := by
      simp only [Walk.memoized, EStateM.run_bind, EStateM.run_get, found]
      rfl
    cases spec with
    | named => exact ⟨progress, run, rfl, trivial⟩
    | array => exact ⟨progress, run, rfl, trivial⟩
  have yields : (unmoved progress).Yields (compileBody setting chain kind (.checked definition)) body :=
    Rules.Yields.definitionBody (shown.imp fun spec schema _ own => recalls spec schema own.1 own.2)
  obtain ⟨after, run, same, -⟩ := yields progress rfl
  rwa [show after = progress from same] at run

section Occurrences

variable (inline : setting.hoisting = false) (built : setting.catalog.OfDefinitions)

include inline built

/-- A body that has been written out, with all its references remembered. -/
private theorem shows_of_run {chain : List Name} {definition : Definition} {kind : Kind} {before after : Progress}
    {body : Schema} (known : ∀ entry ∈ before.known, setting.Inlines entry.1 entry.2)
    (run : (compileBody setting chain kind (.checked definition)).run before = .ok body after) :
    setting.ShowsBody (fun spec schema => setting.Inlines spec schema ∧ IsKnown after spec) definition body := by
  let discipline := setting.inlining inline built
  have valid (spec : TypeSpec) (_ : definition.Mentions spec) : (discipline.rules chain).Ensures
      (fun schema after => setting.Inlines spec schema ∧ IsKnown after spec) (compileSpec setting chain spec) := by
    intro before schema after kept run
    obtain ⟨later, grown, inlines⟩ := discipline.ensures_compileSpec chain spec trivial before schema after kept run
    exact ⟨later, grown, inlines, isKnown_of_run run⟩
  have stable (spec : TypeSpec) (schema : Schema) : (discipline.rules chain).Stable
      fun after => setting.Inlines spec schema ∧ IsKnown after spec :=
    fun before after grown own => ⟨own.1, grown spec.optional own.2⟩
  exact (Rules.Ensures.definitionBody definition stable valid before body after known run).2.2

omit inline built in
/-- However the body came about, an occurrence that is referred to renders it. -/
private theorem follows_rendered {name : String} {required nullable : Bool} {definition : Definition} {body other : Schema}
    {first second : Progress} (named : definition.kind.isNamed = true)
    (classified : classify setting.catalog setting.registry name = .ok (.entry definition.kind (.checked definition)))
    (mirrors : setting.Mirrors first second) (object : other.IsObject)
    (shown : setting.ShowsBody (fun spec schema => setting.Inlines spec schema ∧ IsKnown first spec) definition body) :
    Walk.Follows setting.Mirrors (setting.Renders (.named name required nullable))
      ((Walk.ofAccess (setting.widened nullable body)).run first) (.ok other second) := by
  obtain ⟨bodyObject, widenable⟩ := shown.isWidenable named
  obtain ⟨schema, widened, schemaObject⟩ := widenable.widened bodyObject setting nullable
  rw [widened]
  exact .ok mirrors ⟨.named named classified shown (fun _ _ own => own.1) widened, .inr ⟨schemaObject, object⟩⟩

/-- An occurrence follows if the body does. Where the table has it, the body must be found again. -/
private theorem leads_occurrence {chain : List Name} {name : String} {required nullable : Bool} {definition : Definition}
    {walk twin : Walk Schema} (named : definition.kind.isNamed = true)
    (classified : classify setting.catalog setting.registry name = .ok (.entry definition.kind (.checked definition)))
    (again : ∀ {progress body}, (∀ entry ∈ progress.known, setting.Inlines entry.1 entry.2) →
      setting.ShowsBody (fun spec schema => setting.Inlines spec schema ∧ IsKnown progress spec) definition body →
      walk.run progress = .ok body progress)
    (shows : ∀ {before after body}, (∀ entry ∈ before.known, setting.Inlines entry.1 entry.2) →
      walk.run before = .ok body after →
      setting.ShowsBody (fun spec schema => setting.Inlines spec schema ∧ IsKnown after spec) definition body)
    (bodies : (Entry.checked definition).name ∉ chain → Walk.Leads setting.Mirrors Schema.Level walk twin) :
    Walk.Leads setting.Mirrors (setting.Renders (.named name required nullable))
      (setting.occurrence chain (.checked definition) nullable fun _ => walk)
      (setting.hoisted.occurrence chain (.checked definition) nullable fun _ => twin) := by
  have held := mem_of_classify_eq classified
  obtain ⟨other, reference, object⟩ :=
    (Schema.isWidenable_reference setting.hoisted.dialect.base definition.name).widened trivial setting.hoisted nullable
  intro first second mirrors
  rw [occurrence_inline inline, occurrence_hoisting rfl rfl, reference]
  by_cases fresh : (Entry.checked definition).name ∈ chain
  · rw [dif_pos fresh]
    exact .endless
  rw [dif_neg fresh, EStateM.run_bind, EStateM.run_bind, place_run]
  by_cases listed : definition.name ∈ Record.names second.table
  · obtain ⟨namesake, body, namesakeHeld, same, -, shown⟩ := mirrors.table _ listed
    cases built.eq_of_name held namesakeHeld (congrArg Name.text same.symm)
    rw [again mirrors.known shown, if_pos (Record.has_iff.mpr listed)]
    exact follows_rendered named classified (mirrors.silent _) object shown
  · have absent : ¬ Record.has second.table definition.name = true := fun has => listed (Record.has_iff.mp has)
    rw [if_neg absent, dif_neg fresh, EStateM.run_bind]
    have follows := bodies fresh first second mirrors
    cases ran : walk.run first with
    | error error middle =>
      rw [ran] at follows
      generalize twin.run second = there at follows ⊢
      cases follows with
      | error => exact .error
      | endless => exact .endless
    | ok body middle =>
      have shown := shows mirrors.known ran
      rw [ran] at follows
      generalize twin.run second = there at follows ⊢
      cases follows with
      | ok near _ => exact follows_rendered named classified (near.hoist held named shown _ _) object shown

/-- Hoisting follows writing out, reference by reference. -/
theorem leads_compileSpec (chain : List Name) (spec : TypeSpec) :
    Walk.Leads setting.Mirrors (setting.Renders spec) (compileSpec setting chain spec)
      (compileSpec setting.hoisted chain spec) := by
  induction chain using setting.chain_induction generalizing spec with
  | step chain ih =>
    induction spec with
    | array element required nullable inner =>
      apply leads_memoized
      apply Walk.Leads.bind inner
      intro items other renders
      obtain ⟨schema, widened, object⟩ := (Schema.isWidenable_array items).widened trivial setting nullable
      obtain ⟨schemaToo, widenedToo, objectToo⟩ :=
        (Schema.isWidenable_array other).widened trivial setting.hoisted nullable
      rw [widen_eq, widen_eq, widened, widenedToo]
      exact Walk.Leads.pure ⟨.array renders.1 widened, .inr ⟨object, objectToo⟩⟩
    | named name required nullable =>
      apply leads_memoized
      cases built.denotation setting.registry name with
      | nothing classified =>
        have classifiedToo : classify setting.hoisted.catalog setting.hoisted.registry name = _ := classified
        rw [compileName_error classified, compileName_error classifiedToo]
        exact Walk.Leads.throw _
      | input classified =>
        have classifiedToo : classify setting.hoisted.catalog setting.hoisted.registry name = _ := classified
        rw [compileName_input classified, compileName_input classifiedToo]
        exact Walk.Leads.throw _
      | @fragment value supplies =>
        have suppliesToo : setting.hoisted.catalog.Supplies setting.hoisted.registry name value := supplies
        rw [compileName_fragment supplies, compileName_fragment suppliesToo]
        change Walk.Leads _ _ (Walk.ofAccess (setting.widened nullable (.ofValue value)))
          (Walk.ofAccess (setting.widened nullable (.ofValue value)))
        cases widened : setting.widened nullable (.ofValue value) with
        | ok schema => exact Walk.Leads.pure ⟨.of_supplies supplies widened, .inl rfl⟩
        | error fault => exact Walk.Leads.throw _
      | type named classified =>
        have classifiedToo : classify setting.hoisted.catalog setting.hoisted.registry name = _ := classified
        rw [compileName_named named classified, compileName_named named classifiedToo]
        refine leads_occurrence inline built named classified run_again (shows_of_run inline built) fun fresh => ?_
        exact Walk.Leads.definitionBody rfl _ fun spec _ =>
          (ih _ (mem_of_classify_eq classified) fresh spec).weaken fun _ _ renders => renders.2

theorem leads_ofReferent (value : Value) :
    Walk.Leads setting.Mirrors (fun _ _ => True) (Compiled.ofReferent setting (.written value))
      (Compiled.ofReferent setting.hoisted (.written value)) := by
  have references (spec : TypeSpec) : Walk.Leads setting.Mirrors Schema.Level (compileSpec setting [] spec)
      (compileSpec setting.hoisted [] spec) :=
    (leads_compileSpec inline built [] spec).weaken fun _ _ renders => renders.2
  have single (spec : TypeSpec) : Walk.Leads setting.Mirrors (fun _ _ => True)
      (compileSpec setting [] spec >>= fun schema => pure (Compiled.single schema))
      (compileSpec setting.hoisted [] spec >>= fun schema => pure (Compiled.single schema)) :=
    Walk.Leads.bind (references spec) fun _ _ _ => Walk.Leads.pure trivial
  apply Walk.Leads.reading
  intro spec read
  cases spec with
  | array element required nullable => exact single _
  | named name required nullable =>
    rcases classify_cases setting.catalog setting.registry name with
      ⟨error, classified⟩ | ⟨entry, classified⟩ | ⟨found, classified, noInput⟩
    all_goals have classifiedToo : classify setting.hoisted.catalog setting.hoisted.registry name = _ := classified
    · rw [Compiled.ofSpec_error classified, Compiled.ofSpec_error classifiedToo]
      exact Walk.Leads.throw _
    · obtain ⟨label, parameters, rfl⟩ := built.input classified
      rw [Compiled.ofSpec_input classified, Compiled.ofSpec_input classifiedToo]
      split
      · exact Walk.Leads.throw _
      · apply Walk.Leads.bind (Walk.Leads.parameters fun spec _ => references spec)
        exact fun _ _ _ => Walk.Leads.pure trivial
    · rw [Compiled.ofSpec_named classified noInput, Compiled.ofSpec_named classifiedToo noInput]
      exact single _

end Occurrences

end Setting

end Schemata
