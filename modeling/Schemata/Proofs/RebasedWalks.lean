import Schemata.Proofs.CompileRules
import Schemata.Proofs.RebasedSchemas

/-! One compilation beside another whose references start with another base. The two are kept in step: each
has met what the other has met, and what it has written differs in the base alone. Where types are written
out it does not differ at all, since no references are made there. -/

namespace Schemata

namespace Walk

inductive Parallel (related : Progress → Progress → Prop) (post : α → β → Prop) :
    EStateM.Result CompileError Progress α → EStateM.Result CompileError Progress β → Prop where
  | ok {value : α} {twin : β} {first second : Progress} (near : related first second) (own : post value twin) :
      Parallel related post (.ok value first) (.ok twin second)
  | error {error : CompileError} {first second : Progress} :
      Parallel related post (.error error first) (.error error second)

def Twins (related : Progress → Progress → Prop) (post : α → β → Prop) (walk : Walk α) (twin : Walk β) : Prop :=
  ∀ first second, related first second → Parallel related post (walk.run first) (twin.run second)

/-- What follows on two parallel runs is parallel if it is wherever those runs end. -/
theorem Parallel.bind {related : Progress → Progress → Prop} {post : α → β → Prop} {final : γ → δ → Prop}
    {walk : Walk α} {twin : Walk β} {next : α → Walk γ} {nextToo : β → Walk δ} {first second : Progress}
    (parallel : Parallel related post (walk.run first) (twin.run second))
    (rest : ∀ value other, post value other → Twins related final (next value) (nextToo other)) :
    Parallel related final ((walk >>= next).run first) ((twin >>= nextToo).run second) := by
  rw [EStateM.run_bind, EStateM.run_bind]
  generalize walk.run first = here at parallel
  generalize twin.run second = there at parallel
  cases parallel with
  | ok near own => exact rest _ _ own _ _ near
  | error => exact .error

namespace Twins

variable {related : Progress → Progress → Prop}

theorem weaken {post weaker : α → β → Prop} {walk : Walk α} {twin : Walk β} (twins : Twins related post walk twin)
    (implies : ∀ value other, post value other → weaker value other) : Twins related weaker walk twin := by
  intro first second near
  have parallel := twins first second near
  generalize walk.run first = here at parallel ⊢
  generalize twin.run second = there at parallel ⊢
  cases parallel with
  | ok near own => exact .ok near (implies _ _ own)
  | error => exact .error

protected theorem pure {post : α → β → Prop} {value : α} {other : β} (own : post value other) :
    Twins related post (pure value) (pure other) :=
  fun _ _ near => .ok near own

protected theorem throw {post : α → β → Prop} (error : CompileError) :
    Twins related post (throw error : Walk α) (throw error : Walk β) :=
  fun _ _ _ => .error

protected theorem bind {post : α → β → Prop} {final : γ → δ → Prop} {walk : Walk α} {twin : Walk β} {next : α → Walk γ}
    {nextToo : β → Walk δ} (first : Twins related post walk twin)
    (rest : ∀ value other, post value other → Twins related final (next value) (nextToo other)) :
    Twins related final (walk >>= next) (twin >>= nextToo) :=
  fun one other near => (first one other near).bind rest

theorem accessing {post : β → γ → Prop} (access : Except Fault α) {next : α → Walk β} {nextToo : α → Walk γ}
    (rest : ∀ value, Twins related post (next value) (nextToo value)) :
    Twins related post (Walk.ofAccess access >>= next) (Walk.ofAccess access >>= nextToo) := by
  cases access with
  | ok value => exact rest value
  | error fault => exact Twins.throw (.unusable fault)

theorem reading {post : β → γ → Prop} {reading : Except Misreading α} {next : α → Walk β} {nextToo : α → Walk γ}
    (rest : ∀ value, reading = .ok value → Twins related post (next value) (nextToo value)) :
    Twins related post (Walk.ofReading reading >>= next) (Walk.ofReading reading >>= nextToo) := by
  cases reading with
  | ok value => exact rest value rfl
  | error misreading => exact Twins.throw (.ofMisreading misreading)

end Twins

end Walk

namespace Setting

def rebased (setting : Setting) (base : String) : Setting :=
  { setting with dialect := { setting.dialect with base } }

/-- A value has been changed, which makes no difference to it unless types are hoisted. -/
def Turns (setting : Setting) (change : α → α) (value other : α) : Prop :=
  other = change value ∧ (setting.hoisting = false → change value = value)

variable {setting : Setting} {related : Progress → Progress → Prop}

theorem turns_ofAccess {change : α → α} {access other : Except Fault α} (same : other = access.map change)
    (still : setting.hoisting = false → access.map change = access) :
    Walk.Twins related (setting.Turns change) (Walk.ofAccess access) (Walk.ofAccess other) := by
  subst same
  cases access with
  | ok value => exact Walk.Twins.pure ⟨rfl, fun inline => Except.ok.inj (still inline)⟩
  | error fault => exact Walk.Twins.throw _

theorem turns_each {change : β → β} {step twin : α → Walk β} {items : List α}
    (steps : ∀ item ∈ items, Walk.Twins related (setting.Turns change) (step item) (twin item)) :
    Walk.Twins related (setting.Turns (List.map change)) (Walk.each step items) (Walk.each twin items) := by
  induction items with
  | nil => exact Walk.Twins.pure ⟨rfl, fun _ => rfl⟩
  | cons item rest ih =>
    apply (steps item List.mem_cons_self).bind
    rintro value _ ⟨rfl, still⟩
    apply (ih fun item member => steps item (List.mem_cons_of_mem _ member)).bind
    rintro values _ ⟨rfl, stillToo⟩
    refine Walk.Twins.pure ⟨rfl, fun inline => ?_⟩
    rw [List.map_cons, still inline, stillToo inline]

end Setting

variable {setting : Setting} {base : String}

abbrev Setting.Rebases (setting : Setting) (base : String) (related : Progress → Progress → Prop)
    (walk twin : Walk Schema) : Prop :=
  Walk.Twins related (setting.Turns (Schema.rebase base)) walk twin

namespace Setting.Rebases

variable {related : Progress → Progress → Prop} {compile twin : TypeSpec → Walk Schema}

theorem widened (nullable : Bool) {schema other : Schema} (turns : setting.Turns (Schema.rebase base) schema other)
    (listed : ∀ parts part, schema = .keywords parts → Record.find? parts "oneOf" = some part →
      Schema.addNull (part.rebase base) = (Schema.addNull part).map (Part.rebase base)) :
    setting.Rebases base related (Walk.ofAccess (setting.widened nullable schema))
      (Walk.ofAccess ((setting.rebased base).widened nullable other)) := by
  obtain ⟨rfl, still⟩ := turns
  have same : (setting.rebased base).widened nullable (schema.rebase base) =
      (setting.widened nullable schema).map (Schema.rebase base) := by
    cases nullable with
    | false => rfl
    | true => exact Schema.rebase_nullable? base _ listed
  refine turns_ofAccess same fun inline => ?_
  rw [← same, still inline]
  rfl

/-- A schema without alternatives is widened in the same way. -/
theorem widened_keywords (nullable : Bool) {parts : Schema.Parts} {other : Schema}
    (turns : setting.Turns (Schema.rebase base) (.keywords parts) other) (plain : Record.find? parts "oneOf" = none) :
    setting.Rebases base related (Walk.ofAccess (setting.widened nullable (.keywords parts)))
      (Walk.ofAccess ((setting.rebased base).widened nullable other)) := by
  apply widened nullable turns
  intro others part own found
  cases own
  cases plain.symm.trans found

/-- What was given holds no references. -/
theorem widened_ofValue (nullable : Bool) (fragment : Value) :
    setting.Rebases base related (Walk.ofAccess (setting.widened nullable (.ofValue fragment)))
      (Walk.ofAccess ((setting.rebased base).widened nullable (.ofValue fragment))) := by
  have plain : (Schema.ofValue fragment).rebase base = .ofValue fragment := Schema.rebase_ofValue base fragment
  apply widened nullable ⟨plain.symm, fun _ => plain⟩
  intro parts part own found
  obtain ⟨value, rfl⟩ := Schema.data_of_ofValue own (Record.mem_of_find? found)
  simp only [Part.rebase, Schema.addNull, Schema.partValue]
  cases value.members? <;> rfl

/-- Without hoisting there are no references in a body, whatever else it is. -/
theorem widened_inline (nullable : Bool) {body : Schema} (plain : body.rebase base = body) :
    setting.Rebases base related (Walk.ofAccess (setting.widened nullable body))
      (Walk.ofAccess ((setting.rebased base).widened nullable body)) := by
  apply widened nullable ⟨plain.symm, fun _ => plain⟩
  rintro parts part rfl found
  have own := Schema.rebase_of_mem plain (Record.mem_of_find? found)
  rw [own]
  cases part with
  | schemas alternatives =>
    rw [Part.rebase, Schema.rebaseItems_eq_map, Part.schemas.injEq] at own
    rw [Schema.addNull, Except.map, Part.rebase, Schema.rebaseItems_eq_map, List.map_append, own]
    rfl
  | data | reference | schema | members =>
    simp only [Schema.addNull]
    split <;> rfl

private theorem reference {type : Value} (valid : ∀ spec, setting.Rebases base related (compile spec) (twin spec)) :
    setting.Rebases base related (Walk.reference compile type) (Walk.reference twin type) :=
  Walk.Twins.reading fun spec _ => valid spec

private theorem described (title description : Option Value) {schema other : Schema}
    (turns : setting.Turns (Schema.rebase base) schema other) :
    setting.Rebases base related (Walk.ofAccess (schema.described title description))
      (Walk.ofAccess (other.described title description)) := by
  obtain ⟨rfl, still⟩ := turns
  refine turns_ofAccess (schema.rebase_described base title description) fun inline => ?_
  rw [← schema.rebase_described base, still inline]

private theorem turns_field {ν : Type} (name : ν) (required : Bool) {schema other : Schema}
    (turns : setting.Turns (Schema.rebase base) schema other) :
    setting.Turns (CompiledField.rebase base) ⟨name, schema, required⟩ ⟨name, other, required⟩ :=
  ⟨congrArg (CompiledField.mk name · required) turns.1,
    fun inline => congrArg (CompiledField.mk name · required) (turns.2 inline)⟩

private theorem field (field : Field) (valid : ∀ spec, setting.Rebases base related (compile spec) (twin spec)) :
    Walk.Twins related (setting.Turns (CompiledField.rebase base)) (setting.field compile field)
      ((setting.rebased base).field twin field) := by
  rw [Setting.field_eq, Setting.field_eq]
  apply Walk.Twins.reading
  intro spec _
  have own : setting.Rebases base related (setting.fieldSchema compile field spec)
      ((setting.rebased base).fieldSchema twin field spec) := by
    unfold Setting.fieldSchema
    split
    next choices _ => exact widened_keywords spec.nullable ⟨rfl, fun _ => rfl⟩ rfl
    next => exact valid spec
  apply own.bind
  intro schema other turns
  apply (described _ _ turns).bind
  intro schema other turns
  exact Walk.Twins.pure (turns_field _ _ turns)

private theorem mapBody {body : Schema} (plain : body.rebase base = body) (valueType sample : Option Value)
    (valid : ∀ spec, setting.Rebases base related (compile spec) (twin spec)) :
    setting.Rebases base related (Walk.mapBody compile body valueType sample)
      (Walk.mapBody twin body valueType sample) := by
  rw [Walk.mapBody_eq, Walk.mapBody_eq]
  have keywords : setting.Rebases base related (Walk.mapKeywords compile body valueType)
      (Walk.mapKeywords twin body valueType) := by
    cases valueType with
    | none => exact Walk.Twins.pure ⟨plain.symm, fun _ => plain⟩
    | some type =>
      apply (reference valid).bind
      rintro values _ ⟨rfl, still⟩
      have same := Schema.rebase_set base "additionalProperties" (.schema values) body
      rw [plain, Part.rebase] at same
      exact turns_ofAccess same fun inline => by rw [← same, still inline]
  apply keywords.bind
  rintro keywords _ ⟨rfl, still⟩
  have same := Schema.rebase_annotate base "example" sample keywords
  exact turns_ofAccess same fun inline => by rw [← same, still inline]

private theorem union {alternatives : List Value}
    (valid : ∀ spec, setting.Rebases base related (compile spec) (twin spec)) :
    setting.Rebases base related
      (Walk.each (Walk.reference compile) alternatives >>= fun schemas => pure (.oneOf schemas))
      (Walk.each (Walk.reference twin) alternatives >>= fun schemas => pure (.oneOf schemas)) := by
  apply (turns_each fun type _ => reference valid).bind
  rintro schemas _ ⟨rfl, still⟩
  have same := Schema.rebase_oneOf base schemas
  exact Walk.Twins.pure ⟨same.symm, fun inline => by rw [same, still inline]⟩

private theorem definitionBody (definition : Definition)
    (valid : ∀ spec, setting.Rebases base related (compile spec) (twin spec)) :
    setting.Rebases base related (setting.definitionBody compile definition)
      ((setting.rebased base).definitionBody twin definition) := by
  cases definition with
  | scalar name fragment =>
    have plain : (Schema.ofRecord fragment).rebase base = .ofRecord fragment := Schema.rebase_ofRecord base fragment
    exact Walk.Twins.pure ⟨plain.symm, fun _ => plain⟩
  | sum => exact Walk.Twins.pure ⟨rfl, fun _ => rfl⟩
  | input => exact Walk.Twins.throw _
  | product name fields title description contentType =>
    apply (turns_each fun field _ => Rebases.field field valid).bind
    rintro compiled _ ⟨rfl, still⟩
    have same := CompiledField.rebase_product base compiled (givenText? title) (givenText? description)
    exact Walk.Twins.pure ⟨same.symm, fun inline => same.trans (by rw [still inline]; rfl)⟩
  | map name valueType sample => exact mapBody rfl valueType _ valid
  | union name alternatives => exact union valid

private theorem handField (member : Value) (valid : ∀ spec, setting.Rebases base related (compile spec) (twin spec)) :
    Walk.Twins related (setting.Turns (CompiledField.rebase base)) (setting.handField compile member)
      ((setting.rebased base).handField twin member) := by
  rw [Setting.handField_eq, Setting.handField_eq]
  apply Walk.Twins.accessing
  intro type
  apply Walk.Twins.reading
  intro spec _
  have own : setting.Rebases base related (setting.handSchema compile member spec)
      ((setting.rebased base).handSchema twin member spec) := by
    unfold Setting.handSchema
    split
    next choices _ =>
      cases choices.members? with
      | none => exact Walk.Twins.throw _
      | some values => exact widened_keywords spec.nullable ⟨rfl, fun _ => rfl⟩ rfl
    next => exact valid spec
  apply own.bind
  intro schema other turns
  apply (described _ _ turns).bind
  intro schema other turns
  apply Walk.Twins.accessing
  intro name
  cases name.isKey with
  | false => exact Walk.Twins.throw _
  | true => exact Walk.Twins.pure (turns_field _ _ turns)

end Setting.Rebases

/-- What becomes of a body: it is restated, and without hoisting there is nothing to restate. -/
structure Setting.Restates (setting : Setting) (base : String) (body other : Schema) : Prop where
  restated : Schema.Restates base setting.catalog body other
  inline : setting.hoisting = false → other = body ∧ body.rebase base = body

theorem Setting.Turns.restates {body other : Schema} (turns : setting.Turns (Schema.rebase base) body other) :
    setting.Restates base body other := by
  obtain ⟨rfl, still⟩ := turns
  exact ⟨.built body, fun inline => ⟨still inline, still inline⟩⟩

namespace Setting.Rebases

variable {related : Progress → Progress → Prop} {compile twin : TypeSpec → Walk Schema}

private theorem shapeBody (kind : Kind) {shape : Shape} (held : .handwritten shape ∈ setting.catalog.toList)
    (valid : ∀ spec, setting.Rebases base related (compile spec) (twin spec)) :
    Walk.Twins related (setting.Restates base) (setting.shapeBody compile kind shape)
      ((setting.rebased base).shapeBody twin kind shape) := by
  have built {walk twin : Walk Schema} (rebases : setting.Rebases base related walk twin) :
      Walk.Twins related (setting.Restates base) walk twin := rebases.weaken fun _ _ => Turns.restates
  cases kind with
  | product =>
    apply Walk.Twins.accessing
    intro members
    apply (turns_each fun member _ => handField member valid).bind
    rintro fields _ ⟨rfl, still⟩
    refine Walk.Twins.pure ⟨.written held fields _ _, fun inline => ⟨?_, ?_⟩⟩
    · rw [still inline]
    · rw [CompiledField.rebase_body, Part.rebase]
  | map =>
    apply Walk.Twins.accessing
    intro schema
    apply Walk.Twins.accessing
    intro valueType
    exact built (mapBody (Schema.rebase_ofValue base schema) valueType _ valid)
  | union =>
    apply Walk.Twins.accessing
    intro alternatives
    exact built (union valid)
  | scalar | sum | input =>
    apply Walk.Twins.accessing
    intro schema
    have plain : (Schema.ofValue schema).rebase base = .ofValue schema := Schema.rebase_ofValue base schema
    exact built (Walk.Twins.pure ⟨plain.symm, fun _ => plain⟩)

theorem body (kind : Kind) {entry : Entry}
    (held : ∀ shape, entry = .handwritten shape → .handwritten shape ∈ setting.catalog.toList)
    (valid : ∀ spec, setting.Rebases base related (compile spec) (twin spec)) :
    Walk.Twins related (setting.Restates base) (setting.body compile kind entry)
      ((setting.rebased base).body twin kind entry) := by
  cases entry with
  | checked definition => exact (definitionBody definition valid).weaken fun _ _ => Turns.restates
  | handwritten shape => exact shapeBody kind (held shape rfl) valid

theorem parameters (entry : Entry) (valid : ∀ spec, setting.Rebases base related (compile spec) (twin spec)) :
    Walk.Twins related (setting.Turns (List.map (ParameterRecord.rebase base))) (Walk.parameters compile entry)
      (Walk.parameters twin entry) := by
  cases entry with
  | checked definition =>
    cases definition with
    | scalar | product | sum | map | union => exact Walk.Twins.throw _
    | input name parameters =>
      apply turns_each
      intro parameter _
      apply Walk.Twins.reading
      intro (location, spec) _
      apply (valid spec).bind
      rintro schema _ ⟨rfl, still⟩
      exact Walk.Twins.pure ⟨rfl, fun inline => congrArg (ParameterRecord.of parameter location spec) (still inline)⟩
  | handwritten shape =>
    apply Walk.Twins.accessing
    intro members
    apply turns_each
    intro member _
    apply Walk.Twins.accessing
    intro type
    apply Walk.Twins.reading
    intro (location, spec) _
    apply Walk.Twins.accessing
    intro name
    apply (valid spec).bind
    rintro schema _ ⟨rfl, still⟩
    refine Walk.Twins.pure ⟨rfl, fun inline => ?_⟩
    rw [ParameterRecord.rebase, still inline]

end Setting.Rebases

structure Progress.Restates (setting : Setting) (base : String) (first second : Progress) : Prop where
  table : List.Forall₂ (Record.Pairs fun _ => Schema.Restates base setting.catalog) first.table second.table
  known : second.known = first.known.map fun (spec, schema) => (spec, schema.rebase base)
  still : setting.hoisting = false → ∀ entry ∈ first.known, entry.2.rebase base = entry.2

namespace Setting

private theorem rebases_memoized (spec : TypeSpec) {walk twin : Walk Schema}
    (rebases : setting.Rebases base (Progress.Restates setting base) walk twin) :
    setting.Rebases base (Progress.Restates setting base) (Walk.memoized spec walk) (Walk.memoized spec twin) := by
  intro first second near
  simp only [Walk.memoized, EStateM.run_bind, EStateM.run_get, near.known, Record.lookup_map]
  cases found : first.known.lookup spec.optional with
  | some schema => exact .ok near ⟨rfl, fun inline => near.still inline _ (Record.mem_of_lookup found)⟩
  | none =>
    apply (rebases first second near).bind
    rintro schema _ ⟨rfl, still⟩ first second near
    exact .ok ⟨near.table, congrArg (_ :: ·) near.known, fun inline =>
      List.forall_mem_cons.mpr ⟨still inline, near.still inline⟩⟩ ⟨rfl, still⟩

/-- A reference that hoisting writes differs in the base. -/
private theorem rebases_noted (hoists : setting.hoisting = true) (nullable : Bool) (event : Event) (name : String) :
    setting.Rebases base (Progress.Restates setting base)
      (Walk.note event >>= fun _ => setting.widen nullable (.reference setting.dialect.base name))
      (Walk.note event >>= fun _ => (setting.rebased base).widen nullable (.reference base name)) := by
  simp only [widen_eq]
  intro first second near
  have parallel : Walk.Parallel (Progress.Restates setting base) (fun _ _ => True)
      ((Walk.note event).run first) ((Walk.note event).run second) :=
    .ok ⟨near.table, near.known, near.still⟩ trivial
  refine parallel.bind fun _ _ _ => Rebases.widened_keywords nullable ⟨rfl, fun inline => ?_⟩ rfl
  cases hoists.symm.trans inline

/-- An occurrence of a type differs in the base if its body does. -/
private theorem rebases_occurrence {chain : List Name} {entry : Entry} {nullable : Bool} {walk twin : Walk Schema}
    (bodies : entry.name ∉ chain → Walk.Twins (Progress.Restates setting base) (setting.Restates base) walk twin) :
    setting.Rebases base (Progress.Restates setting base) (setting.occurrence chain entry nullable fun _ => walk)
      ((setting.rebased base).occurrence chain entry nullable fun _ => twin) := by
  unfold occurrence
  by_cases hoists : setting.hoisting = true
  · rw [if_pos hoists, if_pos (show (setting.rebased base).hoisting = true from hoists)]
    split
    next name _ =>
      intro first second near
      simp only [EStateM.run_bind, EStateM.run_get, Record.has_of_forall₂ near.table]
      split
      next => exact rebases_noted hoists nullable _ name first second near
      next =>
        split
        next => exact rebases_noted hoists nullable _ name first second near
        next fresh =>
          apply (bodies fresh first second near).bind
          intro body bodyToo own first second near
          have parallel : Walk.Parallel (Progress.Restates setting base) (fun _ _ => True)
              ((Walk.hoist name body).run first) ((Walk.hoist name bodyToo).run second) :=
            .ok ⟨Record.forall₂_set near.table own.restated, near.known, near.still⟩ trivial
          exact parallel.bind fun _ _ _ => rebases_noted hoists nullable _ name
    next =>
      split
      next fresh =>
        have discarded : Walk.Twins (Progress.Restates setting base) (fun _ _ => True) (discard walk) (discard twin) :=
          (bodies fresh).bind fun _ _ _ => Walk.Twins.pure trivial
        exact discarded.bind fun _ _ _ => Walk.Twins.throw _
      next => exact Walk.Twins.throw _
  · rw [if_neg hoists, if_neg (show ¬ (setting.rebased base).hoisting = true from hoists)]
    split
    next => exact Walk.Twins.throw _
    next fresh =>
      apply (bodies fresh).bind
      intro body other restates
      obtain ⟨rfl, plain⟩ := restates.inline (by simpa using hoists)
      simp only [widen_eq]
      exact Rebases.widened_inline nullable plain

theorem rebases_compileSpec (chain : List Name) (spec : TypeSpec) :
    setting.Rebases base (Progress.Restates setting base) (compileSpec setting chain spec)
      (compileSpec (setting.rebased base) chain spec) := by
  induction chain using setting.chain_induction generalizing spec with
  | step chain ih =>
    induction spec with
    | array element required nullable inner =>
      apply rebases_memoized
      apply inner.bind
      rintro items _ ⟨rfl, still⟩
      simp only [widen_eq]
      exact Rebases.widened_keywords nullable ⟨rfl, fun inline => congrArg Schema.array (still inline)⟩ rfl
    | named name required nullable =>
      apply rebases_memoized
      cases denotation setting.catalog setting.registry name
      all_goals have twin : classify (setting.rebased base).catalog (setting.rebased base).registry name = _ := ‹_›
      case nothing classified =>
        rw [compileName_error classified, compileName_error twin]
        exact Walk.Twins.throw _
      case primitive fragment classified =>
        rw [compileName_primitive classified, compileName_primitive twin]
        exact Rebases.widened_ofValue nullable fragment
      case input classified =>
        rw [compileName_input classified, compileName_input twin]
        exact Walk.Twins.throw _
      case scalar classified =>
        rw [compileName_scalar classified, compileName_scalar twin]
        exact Walk.Twins.accessing _ fun fragment => Rebases.widened_ofValue nullable fragment
      case type named classified =>
        have held := mem_of_classify_eq classified
        rw [compileName_named named classified, compileName_named named twin]
        refine rebases_occurrence fun fresh => Rebases.body _ ?_ (ih _ held fresh)
        exact fun shape same => same ▸ held

private theorem rebases_single {walk twin : Walk Schema}
    (rebases : setting.Rebases base (Progress.Restates setting base) walk twin) :
    Walk.Twins (Progress.Restates setting base) (setting.Turns (Compiled.rebase base))
      (walk >>= fun schema => pure (Compiled.single schema)) (twin >>= fun schema => pure (Compiled.single schema)) := by
  apply rebases.bind
  rintro schema _ ⟨rfl, still⟩
  exact Walk.Twins.pure ⟨rfl, fun inline => congrArg Compiled.single (still inline)⟩

theorem rebases_input (entry : Entry) :
    Walk.Twins (Progress.Restates setting base) (setting.Turns (Compiled.rebase base)) (Compiled.ofInput setting entry)
      (Compiled.ofInput (setting.rebased base) entry) := by
  apply (Rebases.parameters entry (rebases_compileSpec [])).bind
  rintro records _ ⟨rfl, still⟩
  exact Walk.Twins.pure ⟨rfl, fun inline => congrArg Compiled.parameters (still inline)⟩

theorem rebases_ofSpec (spec : TypeSpec) :
    Walk.Twins (Progress.Restates setting base) (setting.Turns (Compiled.rebase base)) (Compiled.ofSpec setting spec)
      (Compiled.ofSpec (setting.rebased base) spec) := by
  cases spec with
  | array element required nullable => exact rebases_single (rebases_compileSpec [] _)
  | named name required nullable =>
    rcases classify_cases setting.catalog setting.registry name with
      ⟨error, classified⟩ | ⟨entry, classified⟩ | ⟨found, classified, noInput⟩
    all_goals have twin : classify (setting.rebased base).catalog (setting.rebased base).registry name = _ := classified
    · rw [Compiled.ofSpec_error classified, Compiled.ofSpec_error twin]
      exact Walk.Twins.throw _
    · rw [Compiled.ofSpec_input classified, Compiled.ofSpec_input twin]
      split
      · exact Walk.Twins.throw _
      · exact rebases_input entry
    · rw [Compiled.ofSpec_named classified noInput, Compiled.ofSpec_named twin noInput]
      exact rebases_single (rebases_compileSpec [] _)

/-- A call with another base differs in the base alone. -/
theorem rebases_ofReferent (given : Referent) :
    Walk.Twins (Progress.Restates setting base) (setting.Turns (Compiled.rebase base))
      (Compiled.ofReferent setting given) (Compiled.ofReferent (setting.rebased base) given) := by
  cases given with
  | written value => exact Walk.Twins.reading fun spec _ => rebases_ofSpec spec
  | entry entry =>
    cases entry with
    | handwritten shape => exact Walk.Twins.throw _
    | checked definition =>
      by_cases named : definition.kind.isNamed = true
      · rw [Compiled.ofReferent, Compiled.ofReferent, Compiled.ofDefinition_named named,
          Compiled.ofDefinition_named named]
        apply rebases_single
        refine rebases_occurrence fun _ => Rebases.body _ ?_ (rebases_compileSpec _)
        simp
      · cases definition with
        | product | sum | map | union => exact absurd rfl named
        | scalar name fragment =>
          have plain : (Schema.ofRecord fragment).rebase base = .ofRecord fragment := Schema.rebase_ofRecord base fragment
          exact Walk.Twins.pure ⟨congrArg _ plain.symm, fun _ => congrArg _ plain⟩
        | input name parameters => exact rebases_input _

end Setting

end Schemata
