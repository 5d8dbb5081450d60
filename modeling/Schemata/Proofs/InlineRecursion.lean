import Schemata.Proofs.HoistingSuccess
import Schemata.Proofs.InlinedTypes

/-! Recursion without hoisting. A compilation of references that are in order succeeds as long as no type
that is reached comes back to itself, however often types repeat side by side. Where one does, the chain
that is reported is a path of references that has come back to one of its own names. -/

namespace Schemata

namespace Catalog

variable {catalog : Catalog} {registry : Registry} {spec start : TypeSpec} {trail : List Definition}

theorem no_circle {relation : α → α → Prop} {first : α} (ends : Acc (fun one other => relation other one) first)
    {last : α} (path : Relation.ReflTransGen relation first last) : ¬ Relation.TransGen relation last last := by
  induction ends with
  | intro first _ ih =>
    intro circle
    rcases Relation.ReflTransGen.cases_head path with rfl | ⟨next, step, rest⟩
    · obtain ⟨next, step, back⟩ := Relation.TransGen.head'_iff.mp circle
      exact ih next step back circle
    · exact ih next step rest circle

theorem Trail.held (follows : catalog.Trail registry spec trail) {definition : Definition}
    (member : definition ∈ trail) : .checked definition ∈ catalog.toList := by
  induction follows with
  | last denotes =>
    cases List.mem_singleton.mp member
    exact denotes.held
  | step denotes _ _ _ ih =>
    rcases List.mem_cons.mp member with rfl | later
    · exact denotes.held
    · exact ih later

/-- A trail whose last name has come up before has come round in a circle. -/
theorem Trail.circle (follows : catalog.Trail registry spec trail) (built : catalog.OfDefinitions)
    (repeats : Setting.Repeats (trail.map fun definition => (Entry.checked definition).name)) :
    ∃ definition ∈ trail, Relation.TransGen (catalog.Uses registry) definition definition := by
  obtain ⟨front, name, same, -, again⟩ := repeats
  obtain ⟨before, rest, rfl, rfl, single⟩ := List.map_eq_append_iff.mp same
  obtain ⟨last, rfl, rfl⟩ := List.map_eq_singleton_iff.mp single
  obtain ⟨definition, member, sameName⟩ := List.mem_map.mp again
  have equal := built.eq_of_name (follows.held (List.mem_append_left [last] member))
    (follows.held (List.mem_append_right before (List.mem_singleton_self last))) sameName
  cases Entry.checked.inj equal
  exact ⟨last, List.mem_append_left _ member, follows.leads rfl member⟩

theorem Enters.reaches {value : Value} (enters : catalog.Enters registry spec start)
    (read : TypeSpec.read false value = .ok spec) (follows : catalog.Trail registry start trail)
    {definition : Definition} (member : definition ∈ trail) :
    catalog.Reaches registry (.written value) definition := by
  obtain ⟨first, denotes, path⟩ := follows.reaches member
  cases enters with
  | self => exact ⟨first, .written read denotes, path⟩
  | @parameter root _ entered input mentions =>
    exact ⟨root, .written read entered, .head ⟨start, mentions, denotes⟩ path⟩

end Catalog

/-- What was answered with all types written out does not reach a circle. -/
theorem Setting.Answers.no_circle {setting : Setting} {stands : Entry → Schema → Prop} {value : Value}
    {compiled : Compiled} (answers : setting.Answers setting.Inlines stands (.written value) compiled)
    (built : setting.catalog.OfDefinitions) {definition : Definition}
    (reaches : setting.catalog.Reaches setting.registry (.written value) definition) :
    ¬ Relation.TransGen (setting.catalog.Uses setting.registry) definition definition := by
  obtain ⟨root, starts, path⟩ := reaches
  refine Catalog.no_circle ?_ path
  cases starts with
  | @written _ spec _ read denotes =>
    cases answers with
    | reference again inlines =>
      cases read.symm.trans again
      exact inlines.accessible denotes
    | input again classified shown =>
      cases read.symm.trans again
      obtain ⟨other, rfl⟩ := built.checked (mem_of_classify_eq classified)
      have same := Except.ok.inj (classified.symm.trans denotes.kind)
      obtain rfl := Entry.checked.inj (Classified.entry.inj same).2
      refine ⟨_, fun next uses => ?_⟩
      obtain ⟨spec, mentions, leads⟩ := uses
      obtain ⟨schema, inlines⟩ := shown.mentioned mentions
      exact inlines.accessible leads

namespace Compiler

/-- Without hoisting, a reference that is in order is answered just if nothing that it reaches comes back
to itself. Otherwise the error names the types of a trail, the last of which is one of the others again. -/
theorem recursion_reported_on_circles (catalog : Catalog) (registry : Registry) (own mode : Mode) (base? : Option String)
    (value : Value) (spec : TypeSpec) (built : catalog.OfDefinitions) (registryRegular : registry.IsRegular)
    (catalogRegular : catalog.IsRegular) (inline : mode.isHoisting = false)
    (read : TypeSpec.read false value = .ok spec) (admissible : catalog.Admissible registry spec) :
    let outcome := ((new catalog registry own base?).compile (.written value) mode).outcome
    let circular (definition : Definition) : Prop := catalog.Reaches registry (.written value) definition ∧
      Relation.TransGen (catalog.Uses registry) definition definition
    ((∀ definition, ¬ circular definition) → ∃ compiled, outcome = .ok compiled) ∧
    ((∃ definition, circular definition) → ∃ start trail, catalog.Enters registry spec start ∧
      catalog.Trail registry start trail ∧
      Setting.Repeats (trail.map fun definition => .text definition.name) ∧
      outcome = .error (.unterminatedRecursion (trail.map fun definition => .text definition.name))) := by
  intro outcome circular
  have fails (error : CompileError) (failed : outcome = .error error) :=
    (refuses_of_error built registryRegular catalogRegular failed).trail built read admissible
  refine ⟨fun acyclic => ?_, fun cyclic => ?_⟩
  · cases failed : outcome with
    | ok compiled => exact ⟨compiled, rfl⟩
    | error error =>
      obtain ⟨-, start, trail, enters, follows, repeats, -⟩ := fails error failed
      obtain ⟨definition, member, circle⟩ := follows.circle built repeats
      exact absurd ⟨enters.reaches read follows member, circle⟩ (acyclic definition)
  · obtain ⟨definition, reaches, circle⟩ := cyclic
    cases answered : outcome with
    | error error =>
      obtain ⟨-, start, trail, enters, follows, repeats, rfl⟩ := fails error answered
      exact ⟨start, trail, enters, follows, repeats, rfl⟩
    | ok compiled =>
      obtain ⟨progress, run, -⟩ := compile_ok answered
      let discipline := ((new catalog registry own base?).setting mode).inlining inline built
      obtain ⟨-, -, answers⟩ := discipline.ensures_ofReferent (.written value) (fun _ _ => trivial) _ _ _
        (fun _ member => (List.not_mem_nil member).elim) run
      exact absurd circle (answers.no_circle built reaches)

/-- Two types that refer to each other, met inside an array. -/
theorem recursion_reported_on_circles_of_ring :
    let field (type : String) : Field := ⟨"other", .text type, none, none, none⟩
    let first : Definition := .product "First" [field "second?"] none none "application/json"
    let second : Definition := .product "Second" [field "!first"] none none "application/json"
    let catalog : Catalog := ⟨[("first", .checked first), ("second", .checked second)],
      [(.text "First", "first"), (.text "Second", "second")]⟩
    let spec : TypeSpec := .array (.named "first" false false) false false
    let outcome := ((new catalog .builtins .jsonSchema none).compile (.written (.text "[first]")) .jsonSchema).outcome
    catalog.OfDefinitions ∧ Registry.builtins.IsRegular ∧ catalog.IsRegular ∧ Mode.jsonSchema.isHoisting = false ∧
      TypeSpec.read false (.text "[first]") = .ok spec ∧ catalog.Admissible .builtins spec ∧
      Relation.TransGen (catalog.Uses .builtins) first first ∧
      ∃ start trail, catalog.Enters .builtins spec start ∧ catalog.Trail .builtins start trail ∧
        Setting.Repeats (trail.map fun definition => .text definition.name) ∧
        outcome = .error (.unterminatedRecursion (trail.map fun definition => .text definition.name)) := by
  intro field first second catalog spec outcome
  have built : catalog.OfDefinitions :=
    Catalog.OfDefinitions.empty.register_all [("first", first), ("second", second)] rfl
  have regular : catalog.IsRegular := by
    intro name fragment member
    simp [Catalog.toList, catalog, first, second] at member
  have read : TypeSpec.read false (.text "[first]") = .ok spec := toOption_eq_some.mp (by decide +kernel)
  have admissible : catalog.Admissible .builtins spec := by
    have hoists : (((new catalog .builtins .refSchema none).compile (.written (.text "[first]"))
        .refSchema).outcome.toOption).isSome = true := by decide +kernel
    obtain ⟨compiled, answered⟩ := Option.isSome_iff_exists.mp hoists
    obtain ⟨other, again, admissible⟩ := admissible_of_hoists built rfl (toOption_eq_some.mp answered)
    cases read.symm.trans again
    exact admissible
  have forth : catalog.Uses .builtins first second :=
    ⟨.named "second" false true, ⟨field "second?", List.mem_singleton_self _, rfl, toOption_eq_some.mp (by decide +kernel)⟩,
      .product, rfl⟩
  have back : catalog.Uses .builtins second first :=
    ⟨.named "first" true false, ⟨field "!first", List.mem_singleton_self _, rfl, toOption_eq_some.mp (by decide +kernel)⟩,
      .product, rfl⟩
  have circle : Relation.TransGen (catalog.Uses .builtins) first first := .tail (.single forth) back
  have reaches : catalog.Reaches .builtins (.written (.text "[first]")) first :=
    ⟨first, .written read ⟨.product, rfl⟩, .refl⟩
  exact ⟨built, Registry.builtins_isRegular, regular, rfl, read, admissible, circle,
    (recursion_reported_on_circles catalog .builtins .jsonSchema .jsonSchema none (.text "[first]") spec built
      Registry.builtins_isRegular regular rfl read admissible).2 ⟨first, reaches, circle⟩⟩

end Compiler

end Schemata
