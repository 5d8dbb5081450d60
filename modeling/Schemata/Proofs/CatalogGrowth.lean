import Schemata.Compile.Classify
import Schemata.Proofs.CatalogInvariant

/-! What a name stands for, and what does not change when a catalog grows. Registering only appends
entries under new identifiers, so whatever an identifier stands for it keeps standing for. -/

namespace Schemata

theorem Registry.mem_of_get? {registry : Registry} {name : String} {fragment : Value}
    (found : registry.get? name = some fragment) : (name, fragment) ∈ registry.fragments :=
  Record.mem_of_find? found

section Classification

variable {catalog : Catalog} {registry : Registry} {name : String}

theorem classify_primitive {fragment : Value} :
    classify catalog registry name = .ok (.primitive fragment) ↔ registry.get? name = some fragment := by
  unfold classify
  cases registry.get? name with
  | some other => simp
  | none =>
    cases catalog.get? name with
    | none => simp
    | some entry => cases kind : entry.kindOf <;> simp [kind, Except.map]

theorem classify_entry {kind : Kind} {entry : Entry} :
    classify catalog registry name = .ok (.entry kind entry) ↔
      registry.get? name = none ∧ catalog.get? name = some entry ∧ entry.kind? = some kind := by
  unfold classify
  cases registry.get? name with
  | some other => simp
  | none =>
    cases catalog.get? name with
    | none => simp
    | some held =>
      cases known : held.kind? with
      | none =>
        simp only [Entry.kindOf, known, Except.map, Option.some.injEq, true_and, reduceCtorEq, false_iff]
        intro found
        obtain ⟨rfl, other⟩ := found
        cases known.symm.trans other
      | some other =>
        simp only [Entry.kindOf, known, Except.map, Except.ok.injEq, Classified.entry.injEq, Option.some.injEq,
          true_and]
        constructor
        · intro found
          obtain ⟨rfl, rfl⟩ := found
          exact ⟨rfl, known⟩
        · intro found
          obtain ⟨rfl, again⟩ := found
          exact ⟨Option.some.inj (known.symm.trans again), rfl⟩

theorem classify_checked {kind : Kind} {definition : Definition}
    (classified : classify catalog registry name = .ok (.entry kind (.checked definition))) :
    definition.kind = kind :=
  Option.some.inj (classify_entry.mp classified).2.2

end Classification

namespace Catalog

/-- What is registered goes to the end, under an identifier and a name that nothing else has. The
identifier is one that references can name. -/
theorem register_ok {catalog extended : Catalog} {identifier? : Option String} {entry : Entry}
    (registered : catalog.register identifier? entry = .ok extended) :
    ∃ identifier name, identifier ∉ Record.names catalog.entries ∧ nameOf entry = .ok name ∧
      catalog.owner? name = none ∧ extended.entries = catalog.entries ++ [(identifier, entry)] ∧
      extended.owners = catalog.owners ++ [(name, identifier)] ∧ TypeSpec.isName identifier.toList = true := by
  unfold register at registered
  cases chosen : identifierFor entry identifier? with
  | error => rw [chosen] at registered; cases registered
  | ok identifier =>
    rw [chosen] at registered
    simp only [bind, Except.bind, pure, Except.pure, throw, throwThe, MonadExceptOf.throw] at registered
    split at registered
    next => cases registered
    next nameable =>
      split at registered
      next => cases registered
      next absent =>
        cases named : nameOf entry with
        | error => rw [named] at registered; cases registered
        | ok name =>
          rw [named] at registered
          simp only at registered
          split at registered
          next => cases registered
          next free =>
            cases registered
            refine ⟨identifier, name, fun known => absent ?_, rfl, Option.eq_none_iff_forall_ne_some.mpr free, rfl, rfl, ?_⟩
            · exact Record.has_iff.mpr known
            · simpa using nameable

/-- A name keeps standing for what it stood for. -/
theorem classify_of_grown {before after : Catalog} (grown : before.entries <+: after.entries) {registry : Registry}
    {name : String} {found : Classified} (classified : classify before registry name = .ok found) :
    classify after registry name = .ok found := by
  cases found with
  | primitive fragment => exact classify_primitive.mpr (classify_primitive.mp classified)
  | entry kind entry =>
    obtain ⟨free, held, known⟩ := classify_entry.mp classified
    exact classify_entry.mpr ⟨free, get?_of_grown grown held, known⟩

/-- A catalog that entries of any sort were registered in, one after another. -/
inductive Registered : Catalog → Prop where
  | empty : Registered empty
  | register {catalog extended : Catalog} {identifier? : Option String} {entry : Entry} (before : Registered catalog)
      (registered : catalog.register identifier? entry = .ok extended) : Registered extended

theorem Registered.isName {catalog : Catalog} (built : catalog.Registered) {identifier : String} {entry : Entry}
    (held : catalog.get? identifier = some entry) : TypeSpec.isName identifier.toList = true := by
  replace held := Record.mem_names_of_mem (Record.mem_of_find? held)
  induction built with
  | empty => cases held
  | register _ registered ih =>
    obtain ⟨chosen, name, -, -, -, grown, -, nameable⟩ := register_ok registered
    rw [grown, Record.names_append, List.mem_append] at held
    rcases held with old | new
    · exact ih old
    · cases List.mem_singleton.mp new
      exact nameable

/-- Names are owned in the order of their entries, and none of them twice. -/
theorem Registered.names_unique {catalog : Catalog} (built : catalog.Registered) :
    catalog.owners.map Prod.fst = catalog.toList.map Entry.name ∧ (catalog.toList.map Entry.name).Nodup := by
  induction built with
  | empty => exact ⟨rfl, .nil⟩
  | @register catalog extended _ entry _ registered ih =>
    obtain ⟨owned, unique⟩ := ih
    obtain ⟨chosen, name, -, named, free, grown, owners, -⟩ := register_ok registered
    have own : entry.name = name := by
      unfold nameOf at named
      unfold Entry.name
      cases given : entry.name? with
      | none => rw [given] at named; cases named
      | some value =>
        rw [given] at named
        dsimp only at named
        split at named
        · exact Except.ok.inj named
        · cases named
    have absent : name ∉ catalog.toList.map Entry.name := by
      rw [← owned]
      intro inside
      obtain ⟨owner, member, same⟩ := List.mem_map.mp inside
      have other := List.find?_eq_none.mp (Option.map_eq_none_iff.mp free) owner member
      simp only [same] at other
      cases name <;> simp [Name.same] at other
    have listed : extended.toList = catalog.toList ++ [entry] := by simp [toList, grown]
    rw [listed, owners, List.map_append, List.map_append, owned]
    refine ⟨by simp [own], unique.append (List.nodup_singleton _) fun other one two => ?_⟩
    cases List.mem_singleton.mp two
    exact absent (own ▸ one)

theorem Registered.eq_of_name {catalog : Catalog} (built : catalog.Registered) {first second : Entry}
    (one : first ∈ catalog.toList) (other : second ∈ catalog.toList) (same : first.name = second.name) : first = second :=
  List.inj_on_of_nodup_map built.names_unique.2 one other same

/-- A catalog that checked definitions were registered in, one after another. -/
inductive OfDefinitions : Catalog → Prop where
  | empty : OfDefinitions empty
  | register {catalog extended : Catalog} {identifier? : Option String} {definition : Definition}
      (before : OfDefinitions catalog)
      (registered : catalog.register identifier? (.checked definition) = .ok extended) : OfDefinitions extended

namespace OfDefinitions

variable {catalog : Catalog}

theorem register_all (before : catalog.OfDefinitions) (definitions : List (String × Definition)) {extended : Catalog}
    (registered : definitions.foldlM (fun (catalog : Catalog) (identifier, definition) =>
      catalog.register (some identifier) (.checked definition)) catalog = .ok extended) : extended.OfDefinitions := by
  induction definitions generalizing catalog with
  | nil =>
    cases registered
    exact before
  | cons head rest ih =>
    obtain ⟨identifier, definition⟩ := head
    rw [List.foldlM_cons] at registered
    dsimp only at registered
    cases one : catalog.register (some identifier) (.checked definition) with
    | error error =>
      rw [one] at registered
      cases registered
    | ok next =>
      rw [one] at registered
      exact ih (before.register one) registered

theorem checked (built : catalog.OfDefinitions) {entry : Entry} (held : entry ∈ catalog.toList) :
    ∃ definition, entry = .checked definition := by
  induction built with
  | empty => cases held
  | @register catalog extended _ definition _ registered ih =>
    obtain ⟨identifier, name, -, -, -, grown, -⟩ := register_ok registered
    rw [toList, grown, List.map_append, List.mem_append] at held
    rcases held with old | new
    · exact ih old
    · exact ⟨definition, List.mem_singleton.mp new⟩

theorem consistent (built : catalog.OfDefinitions) : catalog.Consistent := by
  induction built with
  | empty => exact empty_consistent
  | @register _ _ identifier? definition _ registered ih =>
    have named : (Registration.mk identifier? (.checked definition)).IsNamed := ⟨definition.name, rfl⟩
    exact ih.register named registered

theorem identifiers_nodup (built : catalog.OfDefinitions) : (Record.names catalog.entries).Nodup :=
  built.consistent.identifiers_nodup

theorem eq_of_name (built : catalog.OfDefinitions) {first second : Entry} (one : first ∈ catalog.toList)
    (other : second ∈ catalog.toList) (same : first.name = second.name) : first = second :=
  List.inj_on_of_nodup_map built.consistent.names_nodup one other same

variable {registry : Registry} {name : String} {entry : Entry}

theorem scalar (built : catalog.OfDefinitions) (classified : classify catalog registry name = .ok (.entry .scalar entry)) :
    ∃ label fragment, entry = .checked (.scalar label fragment) := by
  obtain ⟨definition, rfl⟩ := built.checked (mem_of_classify_eq classified)
  have kind := classify_checked classified
  cases definition with
  | product | sum | map | union | input => cases kind
  | scalar label fragment => exact ⟨label, fragment, rfl⟩

theorem input (built : catalog.OfDefinitions) (classified : classify catalog registry name = .ok (.entry .input entry)) :
    ∃ label parameters, entry = .checked (.input label parameters) := by
  obtain ⟨definition, rfl⟩ := built.checked (mem_of_classify_eq classified)
  have kind := classify_checked classified
  cases definition with
  | scalar | product | sum | map | union => cases kind
  | input label parameters => exact ⟨label, parameters, rfl⟩

end OfDefinitions

/-- The fragment that a name stands for, if it is a primitive or a scalar. -/
inductive Supplies (catalog : Catalog) (registry : Registry) (name : String) : Value → Prop where
  | primitive {fragment : Value} (classified : classify catalog registry name = .ok (.primitive fragment)) :
      Supplies catalog registry name fragment
  | scalar {label : String} {fragment : Record Value}
      (classified : classify catalog registry name = .ok (.entry .scalar (.checked (.scalar label fragment)))) :
      Supplies catalog registry name (.record fragment)

theorem Supplies.of_scalar {catalog : Catalog} {registry : Registry} {name : String} {entry : Entry} {fragment : Value}
    (built : catalog.OfDefinitions) (classified : classify catalog registry name = .ok (.entry .scalar entry))
    (read : entry.fragment = .ok fragment) : Supplies catalog registry name fragment := by
  obtain ⟨label, record, rfl⟩ := built.scalar classified
  cases read
  exact .scalar classified

end Catalog

end Schemata
