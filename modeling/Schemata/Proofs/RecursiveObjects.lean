import Schemata.Proofs.InvisibleMemory

/-! Recursion among types that are given as objects. The types that are being written out are told apart by their
names. In a catalog a name has one definition, so there a name comes up again just on a circle. An object need not
be in the catalog: a type of the catalog that has its name and is reached from it is then taken for the object
itself. Nothing else is reported that is no circle. -/

namespace Schemata

namespace Walk

variable {names : List Name}

def Recurs (names : List Name) (walk : Walk α) : Prop :=
  ∃ before after, walk.run before = .error (.unterminatedRecursion names) after

theorem not_recurs_pure (value : α) : ¬ Recurs names (pure value : Walk α) := by
  rintro ⟨before, after, run⟩
  exact run_pure_error run

theorem recurs_throw {error : CompileError} (recurs : Recurs names (throw error : Walk α)) :
    error = .unterminatedRecursion names := by
  obtain ⟨before, after, run⟩ := recurs
  exact (run_throw_error.mp run).1

theorem not_recurs_ofAccess (access : Except Fault α) : ¬ Recurs names (ofAccess access) := by
  rintro ⟨before, after, run⟩
  obtain ⟨fault, -, same, -⟩ := run_ofAccess_error.mp run
  cases same

namespace Recurs

protected theorem bind {walk : Walk α} {next : α → Walk β} (recurs : Recurs names (walk >>= next)) :
    Recurs names walk ∨ ∃ value, Recurs names (next value) := by
  obtain ⟨before, after, run⟩ := recurs
  rcases run_bind_error.mp run with early | ⟨value, middle, -, late⟩
  · exact .inl ⟨before, after, early⟩
  · exact .inr ⟨value, middle, after, late⟩

/-- What is only made into something else at the end was reported before. -/
theorem of_last {walk : Walk α} {next : α → Walk β} (recurs : Recurs names (walk >>= next))
    (silent : ∀ value, ¬ Recurs names (next value)) : Recurs names walk :=
  recurs.bind.resolve_right fun found => silent _ found.choose_spec

theorem reading {reading : Except Misreading α} {next : α → Walk β} (recurs : Recurs names (ofReading reading >>= next)) :
    ∃ value, reading = .ok value ∧ Recurs names (next value) := by
  cases reading with
  | ok value => exact ⟨value, rfl, recurs⟩
  | error misreading =>
    obtain ⟨before, after, run⟩ := recurs
    rcases run_bind_error.mp run with early | ⟨value, middle, impossible, -⟩
    · exact absurd (run_throw_error.mp early).1 Setting.ofMisreading_ne_unterminated
    · cases impossible

theorem each {step : α → Walk β} {items : List α} (recurs : Recurs names (Walk.each step items)) :
    ∃ item ∈ items, Recurs names (step item) := by
  induction items with
  | nil => exact absurd recurs (not_recurs_pure [])
  | cons item rest ih =>
    rcases recurs.bind with first | ⟨value, later⟩
    · exact ⟨item, List.mem_cons_self, first⟩
    · obtain ⟨other, member, own⟩ := ih (later.of_last fun _ => not_recurs_pure _)
      exact ⟨other, List.mem_cons_of_mem _ member, own⟩

theorem memoized {spec : TypeSpec} {walk : Walk Schema} (recurs : Recurs names (Walk.memoized spec walk)) :
    Recurs names walk := by
  obtain ⟨before, after, run⟩ := recurs
  rcases run_bind_error.mp run with early | ⟨progress, middle, got, late⟩
  · cases early
  · cases got
    split at late
    · exact (run_pure_error late).elim
    · exact of_last ⟨_, _, late⟩ fun value recurs => recurs.bind.elim (fun ⟨_, _, impossible⟩ => nomatch impossible)
        fun ⟨_, late⟩ => not_recurs_pure _ late

variable {setting : Setting} {compile : TypeSpec → Walk Schema}

private theorem reference {type : Value} (recurs : Recurs names (Walk.reference compile type)) :
    ∃ spec, TypeSpec.read false type = .ok spec ∧ Recurs names (compile spec) :=
  recurs.reading

private theorem field {field : Field} (recurs : Recurs names (setting.field compile field)) :
    ∃ spec, field.override? = none ∧ TypeSpec.read true field.type = .ok spec ∧ Recurs names (compile spec) := by
  rw [Setting.field_eq] at recurs
  obtain ⟨spec, read, later⟩ := recurs.reading
  have typed : Recurs names (setting.fieldSchema compile field spec) :=
    later.of_last fun _ rest => not_recurs_ofAccess _ (rest.of_last fun _ => not_recurs_pure _)
  unfold Setting.fieldSchema at typed
  split at typed
  next => exact absurd typed (not_recurs_ofAccess _)
  next plain => exact ⟨spec, plain, read, typed⟩

private theorem mapBody {body : Schema} {valueType sample : Option Value}
    (recurs : Recurs names (Walk.mapBody compile body valueType sample)) :
    ∃ type spec, valueType = some type ∧ TypeSpec.read false type = .ok spec ∧ Recurs names (compile spec) := by
  rw [Walk.mapBody_eq] at recurs
  have keywords := recurs.of_last fun _ => not_recurs_ofAccess _
  cases valueType with
  | none => exact absurd keywords (not_recurs_pure body)
  | some type =>
    obtain ⟨spec, read, own⟩ := (keywords.of_last fun _ => not_recurs_ofAccess _).reference
    exact ⟨type, spec, rfl, read, own⟩

/-- A body does not report anything itself. -/
theorem definitionBody {definition : Definition} (recurs : Recurs names (setting.definitionBody compile definition)) :
    ∃ spec, definition.Mentions spec ∧ Recurs names (compile spec) := by
  cases definition with
  | scalar | sum => exact absurd recurs (not_recurs_pure _)
  | input => cases recurs_throw recurs
  | product name fields title description contentType =>
    obtain ⟨field, member, inner⟩ := (recurs.of_last fun _ => not_recurs_pure _).each
    obtain ⟨spec, plain, read, own⟩ := inner.field
    exact ⟨spec, ⟨field, member, plain, read⟩, own⟩
  | map name valueType sample =>
    obtain ⟨type, spec, given, read, own⟩ := recurs.mapBody
    exact ⟨spec, ⟨type, given, read⟩, own⟩
  | union name alternatives =>
    obtain ⟨type, member, inner⟩ := (recurs.of_last fun _ => not_recurs_pure _).each
    obtain ⟨spec, read, own⟩ := inner.reference
    exact ⟨spec, ⟨type, member, read⟩, own⟩

theorem parameters {name : String} {parameters : List Parameter}
    (recurs : Recurs names (Walk.parameters compile (.checked (.input name parameters)))) :
    ∃ spec, (Definition.input name parameters).Mentions spec ∧ Recurs names (compile spec) := by
  obtain ⟨parameter, member, inner⟩ := recurs.each
  obtain ⟨⟨location, spec⟩, read, own⟩ := inner.reading
  exact ⟨spec, ⟨parameter, member, location, read⟩, own.of_last fun _ => not_recurs_pure _⟩

end Recurs

end Walk

/-- The definition on the chain while its references are compiled, if it is of a kind that is put there. -/
def Definition.chained (definition : Definition) : List Definition :=
  if definition.kind.isNamed then [definition] else []

theorem Definition.mem_chained {definition other : Definition} (member : other ∈ definition.chained) :
    other = definition ∧ definition.kind.isNamed = true := by
  unfold chained at member
  split at member
  next named => exact ⟨List.mem_singleton.mp member, named⟩
  next => cases member

namespace Catalog

variable {catalog : Catalog} {registry : Registry} {definition : Definition}

variable (catalog registry) in
def Circular (definition : Definition) : Prop :=
  ∃ other, Relation.ReflTransGen (catalog.Uses registry) definition other ∧
    Relation.TransGen (catalog.Uses registry) other other

variable (catalog registry) in
/-- Another type that is reached from a definition has its name. -/
structure Namesake (definition other : Definition) : Prop where
  reached : Relation.TransGen (catalog.Uses registry) definition other
  apart : other ≠ definition
  name : other.name = definition.name
  named : definition.kind.isNamed = true ∧ other.kind.isNamed = true

theorem Trail.isNamed {spec : TypeSpec} {trail : List Definition} (follows : catalog.Trail registry spec trail) :
    trail ≠ [] ∧ ∀ definition ∈ trail, definition.kind.isNamed = true := by
  induction follows with
  | last _ named => exact ⟨List.cons_ne_nil _ _, by simpa using named⟩
  | step _ named _ _ ih => exact ⟨List.cons_ne_nil _ _, by simpa using ⟨named, ih.2⟩⟩

/-- A trail from a definition has come round in a circle, or to another type with the name of the definition. -/
theorem Trail.circle_or_namesake {spec : TypeSpec} {trail : List Definition} (follows : catalog.Trail registry spec trail)
    (built : catalog.OfDefinitions) (mentions : definition.Mentions spec)
    (repeats : Setting.Repeats ((definition.chained ++ trail).map fun definition => (Entry.checked definition).name)) :
    catalog.Circular registry definition ∨ ∃ other, catalog.Namesake registry definition other := by
  have reach {other : Definition} (member : other ∈ trail) : Relation.TransGen (catalog.Uses registry) definition other := by
    obtain ⟨first, denotes, path⟩ := follows.reaches member
    exact .head' ⟨spec, mentions, denotes⟩ path
  obtain ⟨front, name, same, -, again⟩ := repeats
  obtain ⟨before, rest, whole, rfl, single⟩ := List.map_eq_append_iff.mp same
  obtain ⟨last, rfl, rfl⟩ := List.map_eq_singleton_iff.mp single
  obtain ⟨earlier, member, sameName⟩ := List.mem_map.mp again
  obtain ⟨inner, final, rfl⟩ := (List.eq_nil_or_concat trail).resolve_left follows.isNamed.1
  rw [List.concat_eq_append] at *
  rw [← List.append_assoc] at whole
  obtain ⟨rfl, ends⟩ := List.append_inj' whole rfl
  obtain rfl := List.singleton_inj.mp ends
  have held : final ∈ inner ++ [final] := List.mem_append_right inner (List.mem_singleton_self final)
  rcases List.mem_append.mp member with own | inside
  · obtain ⟨rfl, named⟩ := Definition.mem_chained own
    by_cases equal : final = earlier
    · exact .inl ⟨earlier, .refl, equal ▸ reach held⟩
    · exact .inr ⟨final, reach held, equal, (Name.text.inj sameName).symm, named, follows.isNamed.2 final held⟩
  · have equal := built.eq_of_name (follows.held (List.mem_append_left [final] inside)) (follows.held held) sameName
    cases Entry.checked.inj equal
    exact .inl ⟨earlier, (reach held).to_reflTransGen, follows.leads rfl inside⟩

/-- In a catalog no name has two types. -/
theorem Namesake.unheld {other : Definition} (namesake : catalog.Namesake registry definition other)
    (built : catalog.OfDefinitions) : .checked definition ∉ catalog.toList := by
  intro held
  obtain ⟨before, -, uses⟩ := Relation.TransGen.tail'_iff.mp namesake.reached
  have same := built.eq_of_name uses.held held (congrArg Name.text namesake.name)
  exact namesake.apart (Entry.checked.inj same)

/-- What a product reaches is in order if its fields are. -/
theorem closed_product {name contentType : String} {fields : List Field} {title description : Option String}
    (ordered : ∀ field ∈ fields, ∃ spec, TypeSpec.read true field.type = .ok spec ∧ catalog.Nests registry spec ∧
      ∀ other, catalog.Denotes registry spec other → catalog.Closed registry other) :
    catalog.Closed registry (.product name fields title description contentType) := by
  intro other path
  rcases path.cases_head with rfl | ⟨next, ⟨spec, ⟨field, member, plain, read⟩, denotes⟩, rest⟩
  · constructor
    · rintro reading ⟨field, member, rfl⟩
      obtain ⟨spec, read, -⟩ := ordered field member
      exact ⟨spec, read⟩
    · rintro spec ⟨field, member, -, read⟩
      obtain ⟨same, again, nests, -⟩ := ordered field member
      cases read.symm.trans again
      exact nests
  · obtain ⟨same, again, -, closed⟩ := ordered field member
    cases read.symm.trans again
    exact closed next denotes other rest

end Catalog

namespace Setting

variable {setting : Setting} {names : List Name} {definition : Definition}

/-- Recursion is reported for a reference on a trail that repeats itself or leads back to the chain. -/
theorem trail_of_recurs (built : setting.catalog.OfDefinitions) (inline : setting.hoisting = false) {chain : List Name}
    (distinct : chain.Nodup) {spec : TypeSpec} (recurs : Walk.Recurs names (compileSpec setting chain spec)) :
    ∃ trail, setting.catalog.Trail setting.registry spec trail ∧
      names = chain ++ trail.map (fun definition => (Entry.checked definition).name) ∧ Repeats names := by
  induction chain using setting.chain_induction generalizing spec with
  | step chain ih =>
    induction spec with
    | array element required nullable inner =>
      have items : Walk.Recurs names (compileSpec setting chain element) := by
        refine Walk.Recurs.of_last (Walk.Recurs.memoized recurs) fun items => ?_
        rw [widen_eq]
        exact Walk.not_recurs_ofAccess _
      obtain ⟨trail, follows, rest⟩ := inner items
      exact ⟨trail, follows.of_base rfl, rest⟩
    | named name required nullable =>
      have recurs : Walk.Recurs names (compileName setting chain name required nullable) := Walk.Recurs.memoized recurs
      cases built.denotation setting.registry name with
      | nothing classified =>
        rw [compileName_error classified] at recurs
        exact absurd (Walk.recurs_throw recurs ▸ classified) classify_ne_unterminated
      | input classified =>
        rw [compileName_input classified] at recurs
        cases Walk.recurs_throw recurs
      | fragment supplies =>
        rw [compileName_fragment supplies] at recurs
        exact absurd recurs (Walk.not_recurs_ofAccess _)
      | @type definition named classified =>
        have denotes : setting.catalog.Denotes setting.registry (.named name required nullable) definition :=
          ⟨_, classified⟩
        rw [compileName_named named classified, occurrence_inline inline] at recurs
        split at recurs
        next again =>
          cases Walk.recurs_throw recurs
          exact ⟨[definition], .last denotes named, rfl, chain, _, rfl, distinct, again⟩
        next fresh =>
          have body := recurs.of_last fun _ => Walk.not_recurs_ofAccess _
          obtain ⟨next, mentions, inner⟩ := Walk.Recurs.definitionBody body
          have longer : (chain ++ [(Entry.checked definition).name]).Nodup := by
            refine distinct.append (List.nodup_singleton _) fun other old new => ?_
            cases List.mem_singleton.mp new
            exact fresh old
          obtain ⟨trail, follows, same, repeats⟩ := ih _ (mem_of_classify_eq classified) fresh longer inner
          exact ⟨definition :: trail, .step denotes named mentions follows, by simpa using same, repeats⟩

variable (setting) in
/-- Recursion is reported for an object on a trail from one of its references. -/
theorem trail_of_object_recurs (built : setting.catalog.OfDefinitions) (inline : setting.hoisting = false)
    (recurs : Walk.Recurs names (Compiled.ofReferent setting (.entry (.checked definition)))) :
    ∃ spec trail, definition.Mentions spec ∧ setting.catalog.Trail setting.registry spec trail ∧
      names = (definition.chained ++ trail).map (fun definition => (Entry.checked definition).name) ∧ Repeats names := by
  by_cases named : definition.kind.isNamed = true
  · rw [Compiled.ofReferent, Compiled.ofDefinition_named named, occurrence_inline inline, dif_neg List.not_mem_nil] at recurs
    have body := (recurs.of_last fun _ => Walk.not_recurs_pure _).of_last fun _ => Walk.not_recurs_ofAccess _
    obtain ⟨spec, mentions, inner⟩ := Walk.Recurs.definitionBody body
    obtain ⟨trail, follows, same, repeats⟩ := trail_of_recurs built inline (List.nodup_singleton _) inner
    refine ⟨spec, trail, mentions, follows, ?_, repeats⟩
    simpa [Definition.chained, named] using same
  · cases definition with
    | product | sum | map | union => exact absurd rfl named
    | scalar => exact absurd recurs (Walk.not_recurs_pure _)
    | input name parameters =>
      obtain ⟨spec, mentions, inner⟩ := (Walk.Recurs.of_last recurs fun _ => Walk.not_recurs_pure _).parameters
      obtain ⟨trail, follows, same, repeats⟩ := trail_of_recurs built inline .nil inner
      exact ⟨spec, trail, mentions, follows, same, repeats⟩

variable (setting) in
/-- The compilation of an object whose references are in order fails on nothing but recursion. -/
theorem recursion_of_object_error (built : setting.catalog.OfDefinitions) (registryRegular : setting.registry.IsRegular)
    (catalogRegular : setting.catalog.IsRegular) (inline : setting.hoisting = false)
    (closed : setting.catalog.Closed setting.registry definition) {before after : Progress} (fresh : before.known = [])
    {error : CompileError}
    (run : (Compiled.ofReferent setting (.entry (.checked definition))).run before = .error error after) :
    ∃ names, error = .unterminatedRecursion names := by
  let discipline := setting.objects built registryRegular.holdsObjects
  let recursion (error : CompileError) : Prop := ∃ names, error = .unterminatedRecursion names
  have kept (chain : List Name) : (discipline.rules chain).invariant before := by
    intro entry member
    rw [fresh] at member
    cases member
  have misread (misreading : Misreading) (reads : definition.Reads (.error misreading)) :
      recursion (.ofMisreading misreading) := by
    obtain ⟨_, impossible⟩ := (closed definition .refl).1 _ reads
    cases impossible
  have objects (chain : List Name) (spec : TypeSpec) := discipline.ensures_compileSpec chain spec trivial
  have raises {chain : List Name} (distinct : chain.Nodup) (spec : TypeSpec) (mentions : definition.Mentions spec) :
      (discipline.rules chain).Raises recursion (compileSpec setting chain spec) := by
    intro before error after kept run
    have explains : setting.Explains chain spec error :=
      raises_compileSpec built registryRegular catalogRegular chain spec before error after kept run
    obtain ⟨-, trail, -, -, same⟩ := explains.trail built distinct ((closed definition .refl).2 spec mentions)
      fun other denotes => closed.uses ⟨spec, mentions, denotes⟩
    exact ⟨_, same⟩
  by_cases named : definition.kind.isNamed = true
  · rw [Compiled.ofReferent, Compiled.ofDefinition_named named, occurrence_inline inline, dif_neg List.not_mem_nil] at run
    have noInput : definition.kind ≠ .input := fun input => by simp [input, Kind.isNamed] at named
    change recursion error
    refine Rules.Raises.of_last (Rules.Raises.of_last ?_ fun _ _ _ _ => Walk.run_pure_error)
      (fun _ _ _ _ => Walk.run_pure_error) before error after (kept [(Entry.checked definition).name]) run
    exact Rules.Raises.definitionBody definition noInput misread (fun spec _ => objects _ spec)
      (raises (List.nodup_singleton _))
  · cases definition with
    | product | sum | map | union => exact absurd rfl named
    | scalar => exact (Walk.run_pure_error run).elim
    | input name parameters =>
      have records := Rules.Raises.parameters misread (fun spec _ => objects [] spec) (raises .nil)
      exact records.of_last (fun _ _ _ _ => Walk.run_pure_error) before error after (kept []) run

variable (setting) in
/-- The references of an object that was answered are written out, and reach no type with its name. -/
theorem written_out_of_object (built : setting.catalog.OfDefinitions) (inline : setting.hoisting = false)
    {before after : Progress} (fresh : before.known = []) {compiled : Compiled}
    (run : (Compiled.ofReferent setting (.entry (.checked definition))).run before = .ok compiled after) {spec : TypeSpec}
    (mentions : definition.Mentions spec) : ∃ schema, setting.Inlines spec schema ∧
      setting.Avoids (definition.chained.map fun definition => .text definition.name) spec := by
  have nothing {property : TypeSpec × Schema → Prop} : ∀ entry ∈ before.known, property entry := by
    rw [fresh]
    exact nofun
  by_cases named : definition.kind.isNamed = true
  · rw [Compiled.ofReferent, Compiled.ofDefinition_named named, occurrence_inline inline, dif_neg List.not_mem_nil] at run
    obtain ⟨schema, _, inner, -⟩ := Walk.run_bind_ok.mp run
    obtain ⟨body, _, wrote, -⟩ := Walk.run_bind_ok.mp inner
    let discipline := setting.inliningApart inline built [(Entry.checked definition).name]
    obtain ⟨-, -, shown⟩ := Rules.Ensures.definitionBody definition (discipline.stable _)
      (fun spec _ => discipline.ensures_compileSpec _ spec trivial) before body _ ⟨fun _ => id, nothing⟩ wrote
    obtain ⟨written, own⟩ := shown.mentioned mentions
    refine ⟨written, own.1, ?_⟩
    rw [Definition.chained, if_pos named]
    exact own.2
  · cases definition with
    | product | sum | map | union => exact absurd rfl named
    | scalar => exact mentions.elim
    | input name parameters =>
      let discipline := setting.inliningApart inline built []
      obtain ⟨-, -, answers⟩ := discipline.ensures_ofReferent (.entry (.checked (.input name parameters)))
        ⟨_, rfl⟩ before compiled after ⟨fun _ => id, nothing⟩ run
      cases answers with
      | parameters shown =>
        obtain ⟨written, own⟩ := shown.mentioned mentions
        exact ⟨written, own⟩
      | type impossible => cases impossible

variable (setting) in
/-- What refers only to what can be written out does not reach a circle. -/
theorem not_circular_of_inlines (inlined : ∀ spec, definition.Mentions spec → ∃ schema, setting.Inlines spec schema) :
    ¬ setting.catalog.Circular setting.registry definition := by
  have accessible {next : Definition} (uses : setting.catalog.Uses setting.registry definition next) :
      Acc (fun one other => setting.catalog.Uses setting.registry other one) next := by
    obtain ⟨spec, mentions, denotes⟩ := uses
    obtain ⟨schema, inlines⟩ := inlined spec mentions
    exact inlines.accessible denotes
  rintro ⟨other, path, circle⟩
  rcases path.cases_head with rfl | ⟨next, uses, rest⟩
  · obtain ⟨next, uses, back⟩ := Relation.TransGen.head'_iff.mp circle
    exact Catalog.no_circle (accessible uses) back circle
  · exact Catalog.no_circle (accessible uses) rest circle

end Setting

namespace Compiler

/-- Without hoisting, an object is reported as recursive only if a type that it reaches comes back to itself, or if it
reaches another type with its name; then the report is a trail from one of its references. If all that it reaches is in
order, it is answered in all other cases. The second case is not met by objects of the catalog. -/
theorem objects_recur_on_circles_or_namesakes (compiler : Compiler) (mode : Mode) (definition : Definition)
    (built : compiler.catalog.OfDefinitions) (inline : mode.isHoisting = false) :
    let catalog := compiler.catalog
    let registry := compiler.registry
    let outcome := (compiler.compile (.entry (.checked definition)) mode).outcome
    let comesBack := catalog.Circular registry definition ∨ ∃ other, catalog.Namesake registry definition other
    (∀ names, outcome = .error (.unterminatedRecursion names) → comesBack ∧ ∃ spec trail, definition.Mentions spec ∧
      catalog.Trail registry spec trail ∧ Setting.Repeats names ∧
      names = (definition.chained ++ trail).map fun definition => .text definition.name) ∧
    (registry.IsRegular → catalog.IsRegular → catalog.Closed registry definition →
      ((∃ compiled, outcome = .ok compiled) ↔ ¬ comesBack) ∧
      ((∃ names, outcome = .error (.unterminatedRecursion names)) ↔ comesBack)) ∧
    (.checked definition ∈ catalog.toList → ∀ other, ¬ catalog.Namesake registry definition other) := by
  intro catalog registry outcome comesBack
  have reported (names : List Name) (failed : outcome = .error (.unterminatedRecursion names)) :
      comesBack ∧ ∃ spec trail, definition.Mentions spec ∧ catalog.Trail registry spec trail ∧ Setting.Repeats names ∧
        names = (definition.chained ++ trail).map fun definition => .text definition.name := by
    obtain ⟨progress, run⟩ := run_of_compile_error failed
    obtain ⟨spec, trail, mentions, follows, rfl, repeats⟩ :=
      (compiler.setting mode).trail_of_object_recurs built inline ⟨_, _, run⟩
    exact ⟨follows.circle_or_namesake built mentions repeats, spec, trail, mentions, follows, repeats, rfl⟩
  refine ⟨reported, fun registryRegular catalogRegular closed => ?_, fun held other namesake => namesake.unheld built held⟩
  have alone (compiled : Compiled) (answered : outcome = .ok compiled) : ¬ comesBack := by
    obtain ⟨progress, run, -⟩ := compile_ok answered
    have written {spec : TypeSpec} (mentions : definition.Mentions spec) :=
      (compiler.setting mode).written_out_of_object built inline rfl run mentions
    rintro (circular | ⟨other, namesake⟩)
    · refine (compiler.setting mode).not_circular_of_inlines (fun spec mentions => ?_) circular
      obtain ⟨schema, own, -⟩ := written mentions
      exact ⟨schema, own⟩
    · obtain ⟨next, ⟨spec, mentions, denotes⟩, path⟩ := Relation.TransGen.head'_iff.mp namesake.reached
      obtain ⟨schema, -, avoids⟩ := written mentions
      refine avoids next other denotes path namesake.named.2 ?_
      rw [Definition.chained, if_pos namesake.named.1, namesake.name]
      exact List.mem_singleton_self _
  cases ended : outcome with
  | ok compiled =>
    have apart := alone compiled ended
    refine ⟨⟨fun _ => apart, fun _ => ⟨compiled, rfl⟩⟩, ⟨?_, fun back => absurd back apart⟩⟩
    rintro ⟨names, impossible⟩
    cases impossible
  | error error =>
    obtain ⟨progress, run⟩ := run_of_compile_error ended
    obtain ⟨names, rfl⟩ := (compiler.setting mode).recursion_of_object_error built registryRegular
      catalogRegular inline closed rfl run
    have back := (reported names ended).1
    refine ⟨⟨?_, fun apart => absurd back apart⟩, ⟨fun _ => back, fun _ => ⟨names, rfl⟩⟩⟩
    rintro ⟨compiled, impossible⟩
    cases impossible

private def petFields : List Field := [⟨"id", .text "integer", none, none, none⟩]

private def pet : Definition := .product "Pet" petFields none none "application/json"

private def pets : Catalog := ⟨[("Pet", .checked pet)], [(.text "Pet", "Pet")]⟩

private theorem pets_built : pets.OfDefinitions := Catalog.OfDefinitions.empty.register_all [("Pet", pet)] rfl

private theorem pets_isRegular : pets.IsRegular := by
  intro name fragment member
  simp [Catalog.toList, pets, pet] at member

private theorem pets_nests {spec : TypeSpec} (base : spec.base = "Pet") :
    pets.Nests .builtins spec ∧ ∀ other, pets.Denotes .builtins spec other → pets.Closed .builtins other := by
  have only {other : Definition} (denotes : pets.Denotes .builtins spec other) : other = pet := by
    have held := denotes.held
    exact Entry.checked.inj (List.mem_singleton.mp held)
  refine ⟨⟨.inr (base ▸ rfl), fun other denotes => ?_⟩, fun other denotes => ?_⟩
  · cases only denotes
    nofun
  · cases only denotes
    apply Catalog.closed_product
    intro field member
    cases List.mem_singleton.mp member
    have primitive {other : Definition} : ¬ pets.Denotes .builtins (.named "integer" false false) other := by
      rintro ⟨kind, impossible⟩
      cases impossible
    exact ⟨.named "integer" false false, toOption_eq_some.mp (by decide +kernel),
      ⟨.inl rfl, fun _ denotes => absurd denotes primitive⟩, fun _ denotes => absurd denotes primitive⟩

/-- An object that is not in the catalog has two fields of one type. -/
theorem objects_recur_on_circles_or_namesakes_of_pack :
    let pack : Definition := .product "Pack"
      [⟨"leader", .text "!Pet", none, none, none⟩, ⟨"others", .text "[Pet]?", none, none, none⟩] none none "application/json"
    let compiler := new pets .builtins .jsonSchema none
    compiler.catalog.OfDefinitions ∧ Mode.jsonSchema.isHoisting = false ∧ Registry.builtins.IsRegular ∧ pets.IsRegular ∧
      pets.Closed .builtins pack ∧ .checked pack ∉ pets.toList ∧
      (∃ compiled, (compiler.compile (.entry (.checked pack)) .jsonSchema).outcome = .ok compiled) ∧
      ¬ (pets.Circular .builtins pack ∨ ∃ other, pets.Namesake .builtins pack other) := by
  intro pack compiler
  have closed : pets.Closed .builtins pack := by
    apply Catalog.closed_product
    intro field member
    simp only [List.mem_cons, List.not_mem_nil, or_false] at member
    rcases member with rfl | rfl
    · exact ⟨.named "Pet" true false, toOption_eq_some.mp (by decide +kernel), pets_nests rfl⟩
    · exact ⟨.array (.named "Pet" false false) false true, toOption_eq_some.mp (by decide +kernel), pets_nests rfl⟩
  have succeeds : (compiler.compile (.entry (.checked pack)) .jsonSchema).outcome.toOption.isSome = true := by decide +kernel
  obtain ⟨compiled, answered⟩ := Option.isSome_iff_exists.mp succeeds
  have answered := toOption_eq_some.mp answered
  obtain ⟨-, exactly, -⟩ := objects_recur_on_circles_or_namesakes compiler .jsonSchema pack pets_built rfl
  refine ⟨pets_built, rfl, Registry.builtins_isRegular, pets_isRegular, closed, ?_, ⟨compiled, answered⟩, ?_⟩
  · simp [Catalog.toList, pets, pack, pet]
  · exact (exactly Registry.builtins_isRegular pets_isRegular closed).1.mp ⟨compiled, answered⟩

private def roundNames : Except CompileError Compiled → List Name
  | .error (.unterminatedRecursion names) => names
  | _ => []

/-- An object with the name of a type to which it refers is reported as recursive, though nothing comes back to itself
and everything is in order. Under a name of its own it is answered. -/
theorem namesake_reported_as_recursion :
    let called (name : String) : Definition :=
      .product name [⟨"old", .text "Pet", none, none, none⟩] none none "application/json"
    let outcome (name : String) := ((new pets .builtins .jsonSchema none).compile (.entry (.checked (called name)))
      .jsonSchema).outcome
    pets.OfDefinitions ∧ Registry.builtins.IsRegular ∧ pets.IsRegular ∧ Mode.jsonSchema.isHoisting = false ∧
      pets.Closed .builtins (called "Pet") ∧ ¬ pets.Circular .builtins (called "Pet") ∧
      outcome "Pet" = .error (.unterminatedRecursion [.text "Pet", .text "Pet"]) ∧
      ∃ compiled, outcome "Loose" = .ok compiled := by
  intro called outcome
  have succeeds : (outcome "Loose").toOption.isSome = true := by decide +kernel
  obtain ⟨compiled, answered⟩ := Option.isSome_iff_exists.mp succeeds
  have answered := toOption_eq_some.mp answered
  refine ⟨pets_built, Registry.builtins_isRegular, pets_isRegular, rfl, ?_, ?_, ?_, compiled, answered⟩
  · apply Catalog.closed_product
    intro field member
    cases List.mem_singleton.mp member
    exact ⟨.named "Pet" false false, toOption_eq_some.mp (by decide +kernel), pets_nests rfl⟩
  · -- the references are the same under either name
    obtain ⟨progress, run, -⟩ := compile_ok answered
    refine ((new pets .builtins .jsonSchema none).setting .jsonSchema).not_circular_of_inlines ?_
    intro spec mentions
    obtain ⟨schema, inlines, -⟩ := Setting.written_out_of_object _ pets_built rfl rfl run mentions
    exact ⟨schema, inlines⟩
  · have reported : roundNames (outcome "Pet") = [.text "Pet", .text "Pet"] := by decide +kernel
    unfold roundNames at reported
    split at reported
    next names failed =>
      subst reported
      exact failed
    next => cases reported

end Compiler

end Schemata
