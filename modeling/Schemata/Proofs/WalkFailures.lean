import Schemata.Proofs.BodyShapes

/-! Proof rules for walks that fail. A walk is held to the errors in which it may end, from any progress
that keeps the invariant; what its successful steps ensure is what the later steps may rely on. -/

namespace Schemata

namespace Walk

@[simp] theorem run_pure_error {value : α} {error : CompileError} {before after : Progress} :
    ¬ (pure value : Walk α).run before = .error error after := by
  intro run; cases run

@[simp] theorem run_throw_error {thrown error : CompileError} {before after : Progress} :
    (throw thrown : Walk α).run before = .error error after ↔ thrown = error ∧ before = after := by
  constructor
  · intro run; cases run; exact ⟨rfl, rfl⟩
  · intro same
    obtain ⟨rfl, rfl⟩ := same
    rfl

theorem run_bind_error {walk : Walk α} {next : α → Walk β} {error : CompileError} {before after : Progress} :
    (walk >>= next).run before = .error error after ↔ walk.run before = .error error after ∨
      ∃ value middle, walk.run before = .ok value middle ∧ (next value).run middle = .error error after := by
  rw [EStateM.run_bind]
  cases walk.run before with
  | ok value middle =>
    constructor
    · exact fun run => .inr ⟨value, middle, rfl, run⟩
    · rintro (impossible | ⟨_, _, same, run⟩)
      · cases impossible
      · cases same
        exact run
  | error error middle => simp

@[simp] theorem run_ofAccess_error {access : Except Fault α} {error : CompileError} {before after : Progress} :
    (ofAccess access).run before = .error error after ↔
      ∃ fault, access = .error fault ∧ error = .unusable fault ∧ before = after := by
  cases access with
  | ok value => simp [ofAccess]
  | error fault =>
    rw [ofAccess, run_throw_error]
    simp [eq_comm]

@[simp] theorem run_ofReading_error {reading : Except Misreading α} {error : CompileError} {before after : Progress} :
    (ofReading reading).run before = .error error after ↔
      ∃ misreading, reading = .error misreading ∧ error = .ofMisreading misreading ∧ before = after := by
  cases reading with
  | ok value => simp [ofReading]
  | error misreading =>
    rw [ofReading, run_throw_error]
    simp [eq_comm]

end Walk

/-- Keywords can be set in the schema. -/
def Schema.IsObject : Schema → Prop
  | .keywords _ => True
  | .data _ => False

theorem Schema.IsObject.described {schema : Schema} (object : schema.IsObject) (title description : Option Value) :
    ∃ described, schema.described title description = .ok described ∧ described.IsObject := by
  cases schema with
  | data => exact object.elim
  | keywords parts => cases title <;> cases description <;> exact ⟨_, rfl, trivial⟩

theorem Setting.widened_choice (setting : Setting) (nullable : Bool) (values : Value) :
    ∃ schema, setting.widened nullable (.choice values) = .ok schema ∧ schema.IsObject := by
  unfold Setting.widened
  cases nullable with
  | false => exact ⟨_, rfl, trivial⟩
  | true => cases flagged : setting.dialect.flagged <;> exact ⟨_, rfl, trivial⟩

namespace Rules

variable {rules : Rules} {allowed : CompileError → Prop}

/-- From the invariant the walk can only end in an error that is allowed. -/
def Raises (rules : Rules) (allowed : CompileError → Prop) (walk : Walk α) : Prop :=
  ∀ before error after, rules.invariant before → walk.run before = .error error after → allowed error

namespace Raises

protected theorem pure (value : α) : rules.Raises allowed (pure value) :=
  fun _ _ _ _ run => (Walk.run_pure_error run).elim

protected theorem throw {error : CompileError} (named : allowed error) :
    rules.Raises allowed (throw error : Walk α) := by
  intro before other after _ run
  obtain ⟨rfl, -⟩ := Walk.run_throw_error.mp run
  exact named

theorem ofAccess {access : Except Fault α} {value : α} (given : access = .ok value) :
    rules.Raises allowed (Walk.ofAccess access) := by
  subst given
  exact Raises.pure value

protected theorem bind {walk : Walk α} {next : α → Walk β} {post : α → Progress → Prop}
    (first : rules.Raises allowed walk) (valid : rules.Ensures post walk)
    (rest : ∀ value current, rules.invariant current → post value current →
      ∀ error after, (next value).run current = .error error after → allowed error) :
    rules.Raises allowed (walk >>= next) := by
  intro before error after kept run
  rcases Walk.run_bind_error.mp run with early | ⟨value, middle, ran, late⟩
  · exact first before error after kept early
  · obtain ⟨later, -, shown⟩ := valid before value middle kept ran
    exact rest value middle later shown error after late

/-- What is only made into something else at the end fails where it failed before. -/
theorem of_last {walk : Walk α} {next : α → Walk β} (first : rules.Raises allowed walk)
    (silent : ∀ value current error after, ¬ (next value).run current = .error error after) :
    rules.Raises allowed (walk >>= next) := by
  intro before error after kept run
  rcases Walk.run_bind_error.mp run with early | ⟨value, middle, -, late⟩
  · exact first before error after kept early
  · exact (silent value middle error after late).elim

theorem weaken {walk : Walk α} {other : CompileError → Prop} (raises : rules.Raises allowed walk)
    (implies : ∀ error, allowed error → other error) : rules.Raises other walk :=
  fun before error after kept run => implies error (raises before error after kept run)

theorem reading {reading : Except Misreading α} {next : α → Walk β}
    (misread : ∀ misreading, reading = .error misreading → allowed (.ofMisreading misreading))
    (rest : ∀ value, reading = .ok value → rules.Raises allowed (next value)) :
    rules.Raises allowed (Walk.ofReading reading >>= next) := by
  cases reading with
  | ok value => exact rest value rfl
  | error misreading => exact Raises.throw (α := β) (misread misreading rfl)

theorem each {step : α → Walk β} {items : List α} (moves : ∀ item ∈ items, rules.Moves (step item))
    (steps : ∀ item ∈ items, rules.Raises allowed (step item)) : rules.Raises allowed (Walk.each step items) := by
  induction items with
  | nil => exact Raises.pure []
  | cons item rest ih =>
    apply Raises.bind (steps item List.mem_cons_self) (moves item List.mem_cons_self)
    intro first current kept _ error after run
    have others := ih (fun item member => moves item (List.mem_cons_of_mem _ member))
      (fun item member => steps item (List.mem_cons_of_mem _ member))
    exact others.of_last (fun _ _ _ _ => Walk.run_pure_error) current error after kept run

end Raises

end Rules

namespace Rules.Raises

variable {rules : Rules} {allowed : CompileError → Prop} {setting : Setting} {compile : TypeSpec → Walk Schema}

private theorem reference {type : Value}
    (misread : ∀ misreading, TypeSpec.read false type = .error misreading → allowed (.ofMisreading misreading))
    (raises : ∀ spec, TypeSpec.read false type = .ok spec → rules.Raises allowed (compile spec)) :
    rules.Raises allowed (Walk.reference compile type) :=
  reading misread raises

private theorem field {field : Field}
    (misread : ∀ misreading, TypeSpec.read true field.type = .error misreading → allowed (.ofMisreading misreading))
    (valid : ∀ spec, field.override? = none → TypeSpec.read true field.type = .ok spec →
      rules.Ensures (fun schema _ => schema.IsObject) (compile spec))
    (raises : ∀ spec, field.override? = none → TypeSpec.read true field.type = .ok spec →
      rules.Raises allowed (compile spec)) : rules.Raises allowed (setting.field compile field) := by
  rw [Setting.field_eq]
  apply reading misread
  intro spec read
  have typed : rules.Raises allowed (setting.fieldSchema compile field spec) ∧
      rules.Ensures (fun schema _ => schema.IsObject) (setting.fieldSchema compile field spec) := by
    unfold Setting.fieldSchema
    split
    next choices _ =>
      obtain ⟨schema, widened, object⟩ := setting.widened_choice spec.nullable (.texts choices)
      refine ⟨Raises.ofAccess widened, ?_⟩
      intro before value after kept run
      obtain ⟨same, rfl⟩ := Walk.run_ofAccess_ok.mp run
      cases widened.symm.trans same
      exact ⟨kept, rules.refl _, object⟩
    next plain => exact ⟨raises spec plain read, valid spec plain read⟩
  apply typed.1.bind typed.2
  intro schema current _ object error after run
  obtain ⟨described, same, -⟩ := object.described (givenText? field.title) (givenText? field.description)
  rw [same] at run
  exact (Walk.run_pure_error run).elim

private theorem mapBody {valueType sample : Option Value}
    (misread : ∀ type misreading, valueType = some type → TypeSpec.read false type = .error misreading →
      allowed (.ofMisreading misreading))
    (raises : ∀ type spec, valueType = some type → TypeSpec.read false type = .ok spec →
      rules.Raises allowed (compile spec)) :
    rules.Raises allowed (Walk.mapBody compile .object valueType sample) := by
  intro before error after kept run
  rw [Walk.mapBody_eq] at run
  cases valueType with
  | none => cases sample <;> exact (Walk.run_pure_error run).elim
  | some type =>
    rcases Walk.run_bind_error.mp run with early | ⟨keywords, middle, ran, late⟩
    · have values := Raises.reference (misread type · rfl) (raises type · rfl)
      exact values.of_last (fun _ _ _ _ => Walk.run_pure_error) before error after kept early
    · obtain ⟨values, start, -, set⟩ := Walk.run_bind_ok.mp ran
      obtain ⟨same, rfl⟩ := Walk.run_ofAccess_ok.mp set
      cases same
      cases sample <;> exact (Walk.run_pure_error late).elim

theorem definitionBody (definition : Definition) (noInput : definition.kind ≠ .input)
    (misread : ∀ misreading, definition.Reads (.error misreading) → allowed (.ofMisreading misreading))
    (valid : ∀ spec, definition.Mentions spec → rules.Ensures (fun schema _ => schema.IsObject) (compile spec))
    (raises : ∀ spec, definition.Mentions spec → rules.Raises allowed (compile spec)) :
    rules.Raises allowed (setting.definitionBody compile definition) := by
  cases definition with
  | scalar | sum => exact Raises.pure _
  | input => exact absurd rfl noInput
  | product name fields title description contentType =>
    have moves (field : Field) (member : field ∈ fields) : rules.Moves (setting.field compile field) :=
      (Rules.Ensures.field field fun spec plain read => valid spec ⟨field, member, plain, read⟩).moves
    refine of_last (Raises.each moves fun field member => Raises.field ?_ ?_ ?_) fun _ _ _ _ => Walk.run_pure_error
    · exact fun misreading read => misread misreading ⟨field, member, read.symm⟩
    · exact fun spec plain read => valid spec ⟨field, member, plain, read⟩
    · exact fun spec plain read => raises spec ⟨field, member, plain, read⟩
  | map name valueType sample =>
    refine Raises.mapBody (fun type misreading given read => ?_) fun type spec given read => ?_
    · exact misread misreading ⟨type, given, read.symm⟩
    · exact raises spec ⟨type, given, read⟩
  | union name alternatives =>
    have moves (type : Value) (member : type ∈ alternatives) : rules.Moves (Walk.reference compile type) :=
      (Rules.Ensures.reference type fun spec read => valid spec ⟨type, member, read⟩).moves
    refine of_last (Raises.each moves fun type member => Raises.reference ?_ ?_) fun _ _ _ _ => Walk.run_pure_error
    · exact fun misreading read => misread misreading ⟨type, member, read.symm⟩
    · exact fun spec read => raises spec ⟨type, member, read⟩

theorem parameters {name : String} {parameters : List Parameter}
    (misread : ∀ misreading, (Definition.input name parameters).Reads (.error misreading) →
      allowed (.ofMisreading misreading))
    (valid : ∀ spec, (Definition.input name parameters).Mentions spec →
      rules.Ensures (fun schema _ => schema.IsObject) (compile spec))
    (raises : ∀ spec, (Definition.input name parameters).Mentions spec → rules.Raises allowed (compile spec)) :
    rules.Raises allowed (Walk.parameters compile (.checked (.input name parameters))) := by
  refine Raises.each (fun parameter member => ?_) fun parameter member => ?_
  · exact (Rules.Ensures.parameter parameter fun location spec read =>
      valid spec ⟨parameter, member, location, read⟩).moves
  · refine reading (fun misreading read => misread misreading ⟨parameter, member, ?_⟩) ?_
    · rw [read]
      rfl
    · intro (location, spec) read
      have mentions : (Definition.input name parameters).Mentions spec := ⟨parameter, member, location, read⟩
      exact (raises spec mentions).of_last fun _ _ _ _ => Walk.run_pure_error

end Rules.Raises

end Schemata
