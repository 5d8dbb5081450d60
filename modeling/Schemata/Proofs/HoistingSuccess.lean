import Schemata.Proofs.AdmissibleReferences
import Schemata.Proofs.HoistedTypes

/-! When hoisting succeeds. A call that was answered has settled all that it reaches, so all of that is
in order; and if all that is reached is in order nothing is left to fail, cycles included. -/

namespace Schemata

namespace Setting

variable {setting : Setting} {names : String → Prop}

theorem Settled.nests (built : setting.catalog.OfDefinitions) {spec : TypeSpec} {schema : Schema}
    (settled : setting.Settled names spec schema) : setting.catalog.Nests setting.registry spec := by
  obtain ⟨found, classified, noInput⟩ := classified_of_outline settled.outlined
  refine ⟨built.exists_classify.mp ⟨found, classified⟩, fun definition denotes input => ?_⟩
  have same := Except.ok.inj (classified.symm.trans denotes.kind)
  rw [input] at same
  exact noInput _ same

/-- What is reached from a call that was answered is in order, if its own parameters are. -/
theorem Meets.closed (built : setting.catalog.OfDefinitions) {table : Table}
    (stored : ∀ entry ∈ table, setting.Stores (· ∈ Record.names table) entry.1 entry.2) {given : Referent}
    (meets : setting.Meets (· ∈ Record.names table) given) {root : Definition}
    (starts : setting.catalog.Starts setting.registry given root) (decodes : root.kind = .input → root.Decodes) :
    setting.catalog.Closed setting.registry root := by
  intro definition path
  have reaches : setting.catalog.Reaches setting.registry given definition := ⟨root, starts, path⟩
  obtain ⟨listed, mentioned⟩ := meets.settles built stored reaches
  refine ⟨?_, fun spec mentions => ?_⟩
  · have held : .checked definition ∈ setting.catalog.toList := by
      cases path with
      | refl => exact meets.held root starts
      | tail _ uses => exact uses.choose_spec.2.held
    by_cases named : definition.kind.isNamed = true
    · obtain ⟨body, member⟩ := Record.exists_of_mem_names (listed named)
      obtain ⟨other, otherHeld, same, -, shown⟩ := stored _ member
      cases built.eq_of_name held otherHeld (congrArg Name.text same.symm)
      exact shown.decodes
    · cases definition with
      | product | sum | map | union => exact absurd rfl named
      | scalar => exact fun _ reads => reads.elim
      | input name parameters =>
        cases path with
        | refl => exact decodes rfl
        | tail before uses =>
          -- an input is never reached through a reference that was settled
          obtain ⟨spec, mentions, denotes⟩ := uses
          obtain ⟨schema, settled⟩ := (meets.settles built stored ⟨root, starts, before⟩).2 spec mentions
          exact absurd rfl ((settled.nests built).noInput _ denotes)
  · obtain ⟨schema, settled⟩ := mentioned spec mentions
    exact settled.nests built

end Setting

namespace Compiler

variable {catalog : Catalog} {registry : Registry} {own mode : Mode} {base? : Option String} {value : Value}

theorem admissible_of_hoists (built : catalog.OfDefinitions) (hoists : mode.isHoisting = true) {compiled : Compiled}
    (answered : ((new catalog registry own base?).compile (.written value) mode).outcome = .ok compiled) :
    ∃ spec, TypeSpec.read false value = .ok spec ∧ catalog.Admissible registry spec := by
  have tracks := new_tracks built registry own base?
  have held : ∀ entry, Referent.written value = .entry entry → entry ∈ catalog.toList := nofun
  obtain ⟨table, -, stored, -, answers⟩ := compile_settles tracks hoists held answered
  have meets := answers.meets held (fun _ _ settled => settled) fun definition schema stands => by
    obtain ⟨name, listed, named⟩ := stands
    cases named
    exact listed
  cases answers with
  | @reference _ spec schema read settled =>
    have nests := settled.nests built
    refine ⟨spec, read, nests.resolves, fun definition denotes input => ?_, fun definition denotes => ?_⟩
    · exact absurd input (nests.noInput definition denotes)
    · exact meets.closed built stored (.written read denotes) fun input =>
        absurd input (nests.noInput definition denotes)
  | @input _ name required entry records read classified shown =>
    obtain ⟨root, rfl⟩ := built.checked (mem_of_classify_eq classified)
    refine ⟨_, read, built.exists_classify.mp ⟨_, classified⟩, fun _ _ _ => ⟨rfl, rfl⟩, fun definition denotes => ?_⟩
    have same := Except.ok.inj (classified.symm.trans denotes.kind)
    obtain rfl := Entry.checked.inj (Classified.entry.inj same).2
    exact meets.closed built stored (.written read denotes) fun _ => shown.decodes

theorem refuses_of_error (built : catalog.OfDefinitions) (registryRegular : registry.IsRegular)
    (catalogRegular : catalog.IsRegular) {error : CompileError}
    (failed : ((new catalog registry own base?).compile (.written value) mode).outcome = .error error) :
    ((new catalog registry own base?).setting mode).Refuses value error := by
  obtain ⟨progress, run⟩ := run_of_compile_error failed
  refine Setting.raises_ofReferent built registryRegular catalogRegular value _ error progress ?_ run
  exact fun entry member => (List.not_mem_nil member).elim

/-- A hoisting compiler that has compiled nothing yet answers just the references that are in order, and
never complains of recursion. -/
theorem hoisting_succeeds_iff_admissible (catalog : Catalog) (registry : Registry) (own mode : Mode)
    (base? : Option String) (value : Value) (built : catalog.OfDefinitions) (registryRegular : registry.IsRegular)
    (catalogRegular : catalog.IsRegular) (hoists : mode.isHoisting = true) :
    let outcome := ((new catalog registry own base?).compile (.written value) mode).outcome
    ((∃ compiled, outcome = .ok compiled) ↔
      ∃ spec, TypeSpec.read false value = .ok spec ∧ catalog.Admissible registry spec) ∧
    ∀ chain, outcome ≠ .error (.unterminatedRecursion chain) := by
  intro outcome
  refine ⟨⟨fun answered => ?_, fun admissible => ?_⟩, fun chain failed => ?_⟩
  · obtain ⟨compiled, answered⟩ := answered
    exact admissible_of_hoists built hoists answered
  · obtain ⟨spec, read, admissible⟩ := admissible
    cases failed : outcome with
    | ok compiled => exact ⟨compiled, rfl⟩
    | error error =>
      have refuses := refuses_of_error built registryRegular catalogRegular failed
      have inline := (refuses.trail built read admissible).1
      cases hoists.symm.trans inline
  · have inline := (refuses_of_error built registryRegular catalogRegular failed).inline
    cases hoists.symm.trans inline

/-- An array of a type that refers to itself, and that leaves one name unknown where alternatives are
given. -/
theorem hoisting_succeeds_iff_admissible_of_node :
    let node : Definition := .product "Node"
      [⟨"next", .text "node?", none, none, none⟩, ⟨"hue", .text "!unknown", none, none, some ["red"]⟩]
      none none "application/json"
    let catalog : Catalog := ⟨[("node", .checked node)], [(.text "Node", "node")]⟩
    let outcome := ((new catalog .builtins .refSchema none).compile (.written (.text "[node]")) .refSchema).outcome
    catalog.OfDefinitions ∧ Registry.builtins.IsRegular ∧ catalog.IsRegular ∧ Mode.refSchema.isHoisting = true ∧
      (∃ compiled, outcome = .ok compiled) ∧
      (∃ spec, TypeSpec.read false (.text "[node]") = .ok spec ∧ catalog.Admissible .builtins spec) ∧
      ∀ chain, outcome ≠ .error (.unterminatedRecursion chain) := by
  intro node catalog outcome
  have registered : Catalog.empty.register (some "node") (.checked node) = .ok catalog := rfl
  have built : catalog.OfDefinitions := .register .empty registered
  have regular : catalog.IsRegular := by
    intro name fragment member
    have same : Entry.checked (.scalar name fragment) = .checked node := List.mem_singleton.mp member
    simp [node] at same
  have succeeds : outcome.toOption.isSome = true := by decide +kernel
  obtain ⟨compiled, answered⟩ := Option.isSome_iff_exists.mp succeeds
  have answered := toOption_eq_some.mp answered
  have holds := hoisting_succeeds_iff_admissible catalog .builtins .refSchema .refSchema none (.text "[node]") built
    Registry.builtins_isRegular regular rfl
  exact ⟨built, Registry.builtins_isRegular, regular, rfl, ⟨compiled, answered⟩, holds.1.mp ⟨compiled, answered⟩, holds.2⟩

end Compiler

end Schemata
