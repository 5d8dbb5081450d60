import Schemata.Proofs.CompileErrors

/-! References that are in order. All that is reached from one decodes and stands for something, and an
input is only named where parameters can be answered. Of the reasons why a compilation fails only one is
then left: without hoisting, a path of definitions that comes back to where it has been. -/

namespace Schemata

namespace Catalog

variable (catalog : Catalog) (registry : Registry)

/-- What a reference names is known, and may stand inside other types. -/
structure Nests (spec : TypeSpec) : Prop where
  resolves : registry.contains spec.base = true ∨ catalog.contains spec.base = true
  noInput : ∀ definition, catalog.Denotes registry spec definition → definition.kind ≠ .input

/-- Every reference that is reached from a definition can be read where it stands, and names what may
be nested. -/
def Closed (definition : Definition) : Prop :=
  ∀ other, Relation.ReflTransGen (catalog.Uses registry) definition other →
    other.Decodes ∧ ∀ spec, other.Mentions spec → catalog.Nests registry spec

/-- A reference that may be given to a compiler. It alone may name an input, un-nullable and in no
array. -/
structure Admissible (spec : TypeSpec) : Prop where
  resolves : registry.contains spec.base = true ∨ catalog.contains spec.base = true
  input : ∀ definition, catalog.Denotes registry spec definition → definition.kind = .input →
    spec.isArray = false ∧ spec.nullable = false
  closed : ∀ definition, catalog.Denotes registry spec definition → catalog.Closed registry definition

/-- Named types in a row, from the one that a reference is about: each refers to the next. -/
inductive Trail : TypeSpec → List Definition → Prop where
  | last {spec : TypeSpec} {definition : Definition} (denotes : catalog.Denotes registry spec definition)
      (named : definition.kind.isNamed = true) : Trail spec [definition]
  | step {spec other : TypeSpec} {definition : Definition} {rest : List Definition}
      (denotes : catalog.Denotes registry spec definition) (named : definition.kind.isNamed = true)
      (mentions : definition.Mentions other) (later : Trail other rest) : Trail spec (definition :: rest)

/-- The references at which the types of a compilation are entered: the one that is given, or those of
the parameters if it names an input. -/
inductive Enters (spec : TypeSpec) : TypeSpec → Prop where
  | self : Enters spec spec
  | parameter {definition : Definition} {other : TypeSpec} (denotes : catalog.Denotes registry spec definition)
      (input : definition.kind = .input) (mentions : definition.Mentions other) : Enters spec other

variable {catalog registry}

theorem Denotes.of_base {spec other : TypeSpec} {definition : Definition}
    (denotes : catalog.Denotes registry spec definition) (same : spec.base = other.base) :
    catalog.Denotes registry other definition := by
  obtain ⟨kind, classified⟩ := denotes
  exact ⟨kind, same ▸ classified⟩

theorem Trail.of_base {spec other : TypeSpec} {trail : List Definition} (follows : catalog.Trail registry spec trail)
    (same : spec.base = other.base) : catalog.Trail registry other trail := by
  cases follows with
  | last denotes named => exact .last (denotes.of_base same) named
  | step denotes named mentions later => exact .step (denotes.of_base same) named mentions later

theorem Trail.reaches {spec : TypeSpec} {trail : List Definition} (follows : catalog.Trail registry spec trail)
    {definition : Definition} (member : definition ∈ trail) : ∃ first, catalog.Denotes registry spec first ∧
      Relation.ReflTransGen (catalog.Uses registry) first definition := by
  induction follows with
  | last denotes =>
    cases List.mem_singleton.mp member
    exact ⟨definition, denotes, .refl⟩
  | @step spec other first rest denotes _ mentions _ ih =>
    rcases List.mem_cons.mp member with rfl | later
    · exact ⟨definition, denotes, .refl⟩
    · obtain ⟨second, next, path⟩ := ih later
      exact ⟨first, denotes, .head ⟨other, mentions, next⟩ path⟩

theorem Trail.leads {spec : TypeSpec} {trail front : List Definition} {last definition : Definition}
    (follows : catalog.Trail registry spec trail) (same : trail = front ++ [last]) (member : definition ∈ front) :
    Relation.TransGen (catalog.Uses registry) definition last := by
  induction follows generalizing front with
  | last =>
    have short := congrArg List.length same
    cases front with
    | nil => cases member
    | cons => simp at short
  | @step spec other first rest denotes named mentions later ih =>
    cases front with
    | nil => cases member
    | cons head tail =>
      obtain ⟨rfl, rfl⟩ := List.cons.inj same
      rcases List.mem_cons.mp member with rfl | inside
      · obtain ⟨second, next, path⟩ := later.reaches (List.mem_append_right tail (List.mem_singleton_self last))
        exact .head' ⟨other, mentions, next⟩ path
      · exact ih rfl inside

theorem OfDefinitions.exists_classify (built : catalog.OfDefinitions) {name : String} :
    (∃ found, classify catalog registry name = .ok found) ↔
      registry.contains name = true ∨ catalog.contains name = true := by
  constructor
  · intro resolved
    obtain ⟨found, classified⟩ := resolved
    cases found with
    | primitive fragment =>
      have held := classify_primitive.mp classified
      exact .inl (Option.isSome_iff_exists.mpr ⟨fragment, held⟩)
    | entry kind entry =>
      obtain ⟨-, held, -⟩ := classify_entry.mp classified
      exact .inr (Option.isSome_iff_exists.mpr ⟨entry, held⟩)
  · intro known
    cases primitive : registry.get? name with
    | some fragment => exact ⟨_, classify_primitive.mpr primitive⟩
    | none =>
      have missing : registry.contains name = false := by
        rw [Registry.contains, Record.has, ← Registry.get?, primitive]
        rfl
      rw [missing] at known
      obtain ⟨entry, held⟩ := Option.isSome_iff_exists.mp (known.resolve_left Bool.false_ne_true)
      obtain ⟨definition, rfl⟩ := built.checked (List.mem_map_of_mem (Record.mem_of_find? held))
      exact ⟨_, classify_entry.mpr ⟨primitive, held, rfl⟩⟩

theorem Nests.of_base {spec other : TypeSpec} (nests : catalog.Nests registry spec) (same : spec.base = other.base) :
    catalog.Nests registry other := by
  refine ⟨same ▸ nests.resolves, fun definition denotes => ?_⟩
  exact nests.noInput definition (denotes.of_base same.symm)

theorem Closed.uses {definition other : Definition} (closed : catalog.Closed registry definition)
    (uses : catalog.Uses registry definition other) : catalog.Closed registry other :=
  fun last path => closed last (.head uses path)

end Catalog

namespace Setting

variable {setting : Setting} {chain : List Name} {spec : TypeSpec} {error : CompileError}

/-- A chain that ends in a name which has come up before, and in no other. -/
def Repeats (chain : List Name) : Prop :=
  ∃ front last, chain = front ++ [last] ∧ front.Nodup ∧ last ∈ front

/-- If references are in order, an error is a trail that comes back to the chain or to itself. -/
theorem Explains.trail (explains : setting.Explains chain spec error) (built : setting.catalog.OfDefinitions)
    (distinct : chain.Nodup) (nests : setting.catalog.Nests setting.registry spec)
    (closed : ∀ definition, setting.catalog.Denotes setting.registry spec definition →
      setting.catalog.Closed setting.registry definition) :
    setting.hoisting = false ∧ ∃ trail, setting.catalog.Trail setting.registry spec trail ∧
      Repeats (chain ++ trail.map fun definition => (Entry.checked definition).name) ∧
      error = .unterminatedRecursion (chain ++ trail.map fun definition => (Entry.checked definition).name) := by
  induction explains with
  | element inner ih =>
    obtain ⟨inline, trail, follows, rest⟩ := ih distinct (nests.of_base rfl) fun definition denotes =>
      closed definition (denotes.of_base rfl)
    exact ⟨inline, trail, follows.of_base rfl, rest⟩
  | unclassified classified =>
    obtain ⟨found, resolved⟩ := built.exists_classify.mpr nests.resolves
    cases classified.symm.trans resolved
  | nested classified =>
    obtain ⟨definition, rfl⟩ := built.checked (mem_of_classify_eq classified)
    exact absurd (classify_checked classified) (nests.noInput definition ⟨_, classified⟩)
  | @endless chain name required nullable kind definition inline classified named again =>
    have own := classify_checked classified
    refine ⟨inline, [definition], .last ⟨kind, classified⟩ (own ▸ named), ?_, rfl⟩
    exact ⟨chain, (Entry.checked definition).name, rfl, distinct, again⟩
  | misread classified named reads =>
    obtain ⟨spec, impossible⟩ := (closed _ ⟨_, classified⟩ _ .refl).1 _ reads
    cases impossible
  | @inside chain name required nullable kind definition next error classified named fresh mentions _ ih =>
    have own := classify_checked classified
    have denotes : setting.catalog.Denotes setting.registry (.named name required nullable) definition :=
      ⟨kind, classified⟩
    have open_ := closed definition denotes
    have longer : (chain ++ [(Entry.checked definition).name]).Nodup := by
      apply distinct.append (List.nodup_singleton _)
      intro other old new
      cases List.mem_singleton.mp new
      exact fresh old
    obtain ⟨inline, trail, follows, repeats, same⟩ := ih longer ((open_ definition .refl).2 next mentions)
      fun other denotes => open_.uses ⟨next, mentions, denotes⟩
    refine ⟨inline, definition :: trail, .step denotes (own ▸ named) mentions follows, ?_, ?_⟩
    · simpa using repeats
    · simpa using same

/-- A compilation of a reference that is in order only fails on a trail that repeats itself. -/
theorem Refuses.trail {value : Value} (refuses : setting.Refuses value error) (built : setting.catalog.OfDefinitions)
    (read : TypeSpec.read false value = .ok spec) (admissible : setting.catalog.Admissible setting.registry spec) :
    setting.hoisting = false ∧ ∃ start trail, setting.catalog.Enters setting.registry spec start ∧
      setting.catalog.Trail setting.registry start trail ∧
      Repeats (trail.map fun definition => (Entry.checked definition).name) ∧
      error = .unterminatedRecursion (trail.map fun definition => (Entry.checked definition).name) := by
  cases refuses with
  | misread misread => cases read.symm.trans misread
  | @reference other _ again noInput explains =>
    cases read.symm.trans again
    have nests : setting.catalog.Nests setting.registry spec := by
      refine ⟨admissible.resolves, fun definition denotes input => ?_⟩
      have array := noInput _ (input ▸ denotes.kind)
      rw [(admissible.input definition denotes input).1] at array
      cases array
    obtain ⟨inline, trail, found⟩ := explains.trail built .nil nests admissible.closed
    exact ⟨inline, spec, trail, .self, found⟩
  | nullable again classified =>
    cases read.symm.trans again
    obtain ⟨definition, rfl⟩ := built.checked (mem_of_classify_eq classified)
    cases (admissible.input definition ⟨_, classified⟩ (classify_checked classified)).2
  | parameter again classified reads =>
    cases read.symm.trans again
    obtain ⟨_, impossible⟩ := (admissible.closed _ ⟨_, classified⟩ _ .refl).1 _ reads
    cases impossible
  | @mentioned name required definition next _ again classified mentions explains =>
    cases read.symm.trans again
    have closed := admissible.closed definition ⟨_, classified⟩
    obtain ⟨inline, trail, found⟩ := explains.trail built .nil ((closed definition .refl).2 next mentions)
      fun other denotes => closed.uses ⟨next, mentions, denotes⟩
    exact ⟨inline, next, trail, .parameter ⟨_, classified⟩ (classify_checked classified) mentions, found⟩

end Setting

end Schemata
