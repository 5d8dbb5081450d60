import Schemata.Proofs.BodyShapes

/-! Walks that do not depend on what is hidden from them. A walk may be sure to yield some value and
to do nothing else that is seen; or two walks, or one and the same, do the same from any two progresses
that look alike, down to the error in which they end. Unlike the rules for walks that succeed, these
speak of failure too. -/

namespace Schemata

namespace Rules

/-- From the invariant the walk succeeds with the value, with the invariant and with some growth. -/
def Yields (rules : Rules) (walk : Walk α) (value : α) : Prop :=
  ∀ before, rules.invariant before →
    ∃ after, walk.run before = .ok value after ∧ rules.invariant after ∧ rules.growth before after

variable {rules : Rules}

namespace Yields

protected theorem pure (value : α) : rules.Yields (pure value) value :=
  fun before kept => ⟨before, rfl, kept, rules.refl before⟩

theorem ofAccess {access : Except Fault α} {value : α} (given : access = .ok value) :
    rules.Yields (Walk.ofAccess access) value := by
  subst given
  exact Yields.pure value

theorem ofReading {reading : Except Misreading α} {value : α} (read : reading = .ok value) :
    rules.Yields (Walk.ofReading reading) value := by
  subst read
  exact Yields.pure value

protected theorem bind {walk : Walk α} {next : α → Walk β} {value : α} {result : β}
    (first : rules.Yields walk value) (rest : rules.Yields (next value) result) :
    rules.Yields (walk >>= next) result := by
  intro before kept
  obtain ⟨middle, ran, inner, grown⟩ := first before kept
  obtain ⟨after, continued, later, further⟩ := rest middle inner
  exact ⟨after, Walk.run_bind_ok.mpr ⟨value, middle, ran, continued⟩, later, rules.trans grown further⟩

theorem each {step : α → Walk β} {items : List α} {values : List β}
    (all : List.Forall₂ (fun item value => rules.Yields (step item) value) items values) :
    rules.Yields (Walk.each step items) values := by
  induction all with
  | nil => exact Yields.pure []
  | cons first rest ih => exact Yields.bind first (Yields.bind ih (Yields.pure _))

end Yields

variable {setting : Setting} {compile : TypeSpec → Walk Schema}

private theorem Yields.reference {type : Value} {schema : Schema}
    (shown : ShowsReference (fun spec schema => rules.Yields (compile spec) schema) type schema) :
    rules.Yields (Walk.reference compile type) schema := by
  obtain ⟨spec, read, yields⟩ := shown
  exact Yields.bind (Yields.ofReading read) yields

private theorem Yields.field {field : Field} {compiled : CompiledField String}
    (shown : setting.ShowsField (fun spec schema => rules.Yields (compile spec) schema) field compiled) :
    rules.Yields (setting.field compile field) compiled := by
  obtain ⟨spec, schema, described, read, typed, annotated, rfl⟩ := shown
  have own : rules.Yields (setting.fieldSchema compile field spec) schema := by
    unfold Setting.fieldSchema
    unfold Setting.ShowsType at typed
    split at typed
    next => exact Yields.ofAccess typed
    next => exact typed
  rw [Setting.field_eq]
  exact Yields.bind (Yields.ofReading read) (Yields.bind own (Yields.bind (Yields.ofAccess annotated) (Yields.pure _)))

/-- If the walk of every reference is sure to yield its schema, that of the body yields the body. -/
theorem Yields.definitionBody {definition : Definition} {body : Schema}
    (shown : setting.ShowsBody (fun spec schema => rules.Yields (compile spec) schema) definition body) :
    rules.Yields (setting.definitionBody compile definition) body := by
  cases definition with
  | scalar | sum =>
    cases shown
    exact Yields.pure _
  | input => exact shown.elim
  | product name fields title description contentType =>
    obtain ⟨compiled, all, rfl⟩ := shown
    exact Yields.bind (Yields.each (all.imp fun _ _ => Yields.field)) (Yields.pure _)
  | map name valueType sample =>
    obtain ⟨keywords, shown, annotated⟩ := shown
    rw [Setting.definitionBody, Walk.mapBody_eq]
    refine Yields.bind ?_ (Yields.ofAccess annotated)
    cases valueType with
    | none =>
      cases show keywords = .object from shown
      exact Yields.pure _
    | some type =>
      obtain ⟨values, typed, set⟩ := shown
      exact Yields.bind (Yields.reference typed) (Yields.ofAccess set)
  | union name alternatives =>
    obtain ⟨schemas, all, rfl⟩ := shown
    exact Yields.bind (Yields.each (all.imp fun _ _ => Yields.reference)) (Yields.pure _)

end Rules

namespace Walk

/-- Two runs with one outcome. How far a run got before it failed is not looked at. -/
inductive Alike (related : Progress → Progress → Prop) :
    EStateM.Result CompileError Progress α → EStateM.Result CompileError Progress α → Prop where
  | ok {value : α} {first second : Progress} (near : related first second) :
      Alike related (.ok value first) (.ok value second)
  | error {error : CompileError} {first second : Progress} : Alike related (.error error first) (.error error second)

theorem Alike.imp {related other : Progress → Progress → Prop} {first second : EStateM.Result CompileError Progress α}
    (alike : Alike related first second) (implies : ∀ {one two}, related one two → other one two) :
    Alike other first second := by
  cases alike with
  | ok near => exact .ok (implies near)
  | error => exact .error

/-- What follows on two runs that are alike is alike if it is wherever those runs end. -/
theorem Alike.bind {related final : Progress → Progress → Prop} {walk twin : Walk α} {next nextToo : α → Walk β}
    {first second : Progress} (alike : Alike related (walk.run first) (twin.run second))
    (rest : ∀ value one other, related one other → Alike final ((next value).run one) ((nextToo value).run other)) :
    Alike final ((walk >>= next).run first) ((twin >>= nextToo).run second) := by
  rw [EStateM.run_bind, EStateM.run_bind]
  generalize walk.run first = here at alike
  generalize twin.run second = there at alike
  cases alike with
  | ok near => exact rest _ _ _ near
  | error => exact .error

/-- The walks do the same wherever the progress looks the same. -/
def Agrees (related : Progress → Progress → Prop) (walk twin : Walk α) : Prop :=
  ∀ first second, related first second → Alike related (walk.run first) (twin.run second)

namespace Agrees

variable {related : Progress → Progress → Prop}

protected theorem pure (value : α) : Agrees related (pure value) (pure value) :=
  fun _ _ near => .ok near

protected theorem throw (error : CompileError) : Agrees related (throw error : Walk α) (throw error) :=
  fun _ _ _ => .error

theorem ofAccess (access : Except Fault α) : Agrees related (Walk.ofAccess access) (Walk.ofAccess access) := by
  cases access with
  | ok value => exact Agrees.pure value
  | error fault => exact Agrees.throw _

protected theorem bind {walk twin : Walk α} {next nextToo : α → Walk β} (first : Agrees related walk twin)
    (rest : ∀ value, Agrees related (next value) (nextToo value)) :
    Agrees related (walk >>= next) (twin >>= nextToo) := by
  intro one other near
  exact (first one other near).bind rest

theorem reading {reading : Except Misreading α} {next nextToo : α → Walk β}
    (rest : ∀ value, reading = .ok value → Agrees related (next value) (nextToo value)) :
    Agrees related (Walk.ofReading reading >>= next) (Walk.ofReading reading >>= nextToo) := by
  cases reading with
  | ok value => exact rest value rfl
  | error misreading => exact Agrees.throw (α := β) (.ofMisreading misreading)

theorem each {step twin : α → Walk β} {items : List α}
    (steps : ∀ item ∈ items, Agrees related (step item) (twin item)) :
    Agrees related (Walk.each step items) (Walk.each twin items) := by
  induction items with
  | nil => exact Agrees.pure []
  | cons item rest ih =>
    apply Agrees.bind (steps item List.mem_cons_self)
    intro first
    apply Agrees.bind (ih fun item member => steps item (List.mem_cons_of_mem _ member))
    intro others
    exact Agrees.pure _

variable {setting : Setting} {compile twin : TypeSpec → Walk Schema}

private theorem reference {type : Value}
    (valid : ∀ spec, TypeSpec.read false type = .ok spec → Agrees related (compile spec) (twin spec)) :
    Agrees related (Walk.reference compile type) (Walk.reference twin type) :=
  reading valid

private theorem field {field : Field}
    (valid : ∀ spec, field.override? = none → TypeSpec.read true field.type = .ok spec →
      Agrees related (compile spec) (twin spec)) :
    Agrees related (setting.field compile field) (setting.field twin field) := by
  rw [Setting.field_eq, Setting.field_eq]
  apply reading
  intro spec read
  refine Agrees.bind ?_ fun schema => Agrees.bind (ofAccess _) fun described => Agrees.pure _
  unfold Setting.fieldSchema
  split
  next => exact ofAccess _
  next plain => exact valid spec plain read

private theorem mapBody {body : Schema} {valueType sample : Option Value}
    (valid : ∀ type spec, valueType = some type → TypeSpec.read false type = .ok spec →
      Agrees related (compile spec) (twin spec)) :
    Agrees related (Walk.mapBody compile body valueType sample) (Walk.mapBody twin body valueType sample) := by
  rw [Walk.mapBody_eq, Walk.mapBody_eq]
  refine Agrees.bind ?_ fun keywords => ofAccess _
  cases valueType with
  | none => exact Agrees.pure _
  | some type => exact Agrees.bind (reference fun spec read => valid type spec rfl read) fun values => ofAccess _

/-- The walks through a body agree if the walks of its references do. -/
theorem definitionBody (definition : Definition)
    (valid : ∀ spec, definition.Mentions spec → Agrees related (compile spec) (twin spec)) :
    Agrees related (setting.definitionBody compile definition) (setting.definitionBody twin definition) := by
  cases definition with
  | scalar | sum => exact Agrees.pure _
  | input => exact Agrees.throw _
  | product name fields title description contentType =>
    refine Agrees.bind (each fun field member => Agrees.field fun spec plain read => ?_) fun compiled => Agrees.pure _
    exact valid spec ⟨field, member, plain, read⟩
  | map name valueType sample => exact mapBody fun type spec given read => valid spec ⟨type, given, read⟩
  | union name alternatives =>
    refine Agrees.bind (each fun type member => reference fun spec read => ?_) fun schemas => Agrees.pure _
    exact valid spec ⟨type, member, read⟩

private theorem handField {member : Value} (valid : ∀ spec, Agrees related (compile spec) (twin spec)) :
    Agrees related (setting.handField compile member) (setting.handField twin member) := by
  rw [Setting.handField_eq, Setting.handField_eq]
  apply Agrees.bind (ofAccess _)
  intro type
  apply reading
  intro spec _
  refine Agrees.bind ?_ fun schema => Agrees.bind (ofAccess _) fun described =>
    Agrees.bind (ofAccess _) fun name => ofAccess _
  unfold Setting.handSchema
  split
  next choices _ =>
    cases choices.members? with
    | none => exact Agrees.throw _
    | some values => exact ofAccess _
  next => exact valid spec

theorem shapeBody (kind : Kind) (shape : Shape) (valid : ∀ spec, Agrees related (compile spec) (twin spec)) :
    Agrees related (setting.shapeBody compile kind shape) (setting.shapeBody twin kind shape) := by
  cases kind with
  | product =>
    apply Agrees.bind (ofAccess _)
    intro members
    exact Agrees.bind (each fun member _ => handField valid) fun fields => Agrees.pure _
  | map =>
    apply Agrees.bind (ofAccess _)
    intro schema
    apply Agrees.bind (ofAccess _)
    intro valueType
    exact mapBody fun _ spec _ _ => valid spec
  | union =>
    apply Agrees.bind (ofAccess _)
    intro alternatives
    exact Agrees.bind (each fun type _ => reference fun spec _ => valid spec) fun schemas => Agrees.pure _
  | scalar | sum | input => exact Agrees.bind (ofAccess _) fun schema => Agrees.pure _

theorem parameters (entry : Entry)
    (valid : ∀ spec, (∀ definition, entry = .checked definition → definition.Mentions spec) →
      Agrees related (compile spec) (twin spec)) :
    Agrees related (Walk.parameters compile entry) (Walk.parameters twin entry) := by
  cases entry with
  | checked definition =>
    cases definition with
    | scalar | product | sum | map | union => exact Agrees.throw _
    | input name parameters =>
      apply each
      intro parameter member
      apply reading
      intro (location, spec) read
      refine Agrees.bind (valid spec ?_) fun schema => Agrees.pure _
      intro definition same
      cases same
      exact ⟨parameter, member, location, read⟩
  | handwritten shape =>
    apply Agrees.bind (ofAccess _)
    intro members
    apply each
    intro member _
    apply Agrees.bind (ofAccess _)
    intro type
    apply reading
    intro (location, spec) _
    apply Agrees.bind (ofAccess _)
    intro name
    exact Agrees.bind (valid spec fun _ impossible => nomatch impossible) fun schema => Agrees.pure _

end Agrees

/-- Two progresses with one table, and with memories that are related. The log is not looked at. -/
def Matches (kept : List (TypeSpec × Schema) → List (TypeSpec × Schema) → Prop) (first second : Progress) : Prop :=
  first.table = second.table ∧ kept first.known second.known

variable {kept : List (TypeSpec × Schema) → List (TypeSpec × Schema) → Prop} {first second : Progress}

theorem Matches.widen (setting : Setting) (matched : Matches kept first second) (nullable : Bool) (schema : Schema) :
    Alike (Matches kept) ((setting.widen nullable schema).run first) ((setting.widen nullable schema).run second) := by
  rw [Setting.widen_eq]
  exact Agrees.ofAccess _ first second matched

/-- An occurrence of a type looks at the table and at what its body does, and at nothing else. -/
theorem Matches.occurrence {setting : Setting} {chain : List Name} {entry : Entry} {nullable : Bool}
    {body bodyToo : entry.name ∉ chain → Walk Schema} (matched : Matches kept first second)
    (bodies : ∀ fresh, Alike (Matches kept) ((body fresh).run first) ((bodyToo fresh).run second)) :
    Alike (Matches kept) ((setting.occurrence chain entry nullable body).run first)
      ((setting.occurrence chain entry nullable bodyToo).run second) := by
  have noted (event : Event) {one other : Progress} (matched : Matches kept one other) (schema : Schema) :
      Alike (Matches kept) ((note event >>= fun _ => setting.widen nullable schema).run one)
        ((note event >>= fun _ => setting.widen nullable schema).run other) := by
    have alike : Alike (Matches kept) ((note event).run one) ((note event).run other) := .ok matched
    exact alike.bind fun _ _ _ matched => matched.widen setting nullable schema
  unfold Setting.occurrence
  split
  next hoists =>
    split
    next name _ =>
      simp only [EStateM.run_bind, EStateM.run_get, matched.1]
      split
      next => exact noted _ matched _
      next =>
        split
        next => exact noted _ matched _
        next fresh =>
          apply (bodies fresh).bind
          intro written one other matched
          have alike : Alike (Matches kept) ((hoist name written).run one) ((hoist name written).run other) :=
            .ok ⟨congrArg (Record.set · name written) matched.1, matched.2⟩
          exact alike.bind fun _ _ _ matched => noted _ matched _
    next =>
      split
      next fresh =>
        have discarded : Alike (Matches kept) ((discard (body fresh)).run first) ((discard (bodyToo fresh)).run second) :=
          (bodies fresh).bind fun _ _ _ matched => .ok matched
        exact discarded.bind fun _ _ _ _ => .error
      next => exact .error
  next =>
    split
    next => exact .error
    next fresh => exact (bodies fresh).bind fun written one other matched => matched.widen setting nullable written

theorem Agrees.memoized {spec : TypeSpec} {walk twin : Walk Schema} (agrees : Agrees (Matches Eq) walk twin) :
    Agrees (Matches Eq) (Walk.memoized spec walk) (Walk.memoized spec twin) := by
  intro first second matched
  simp only [Walk.memoized, EStateM.run_bind, EStateM.run_get, matched.2]
  split
  next schema found => exact .ok matched
  next =>
    apply (agrees first second matched).bind
    intro schema one other matched
    exact .ok ⟨matched.1, congrArg (_ :: ·) matched.2⟩

def Respects (related : Progress → Progress → Prop) (walk : Walk α) : Prop :=
  ∀ first second, related first second → Alike related (walk.run first) (walk.run second)

namespace Respects

variable {related : Progress → Progress → Prop}

protected theorem pure (value : α) : Respects related (pure value) := Agrees.pure value

protected theorem throw (error : CompileError) : Respects related (throw error : Walk α) := Agrees.throw error

theorem ofAccess (access : Except Fault α) : Respects related (Walk.ofAccess access) := Agrees.ofAccess access

protected theorem bind {walk : Walk α} {next : α → Walk β} (first : Respects related walk)
    (rest : ∀ value, Respects related (next value)) : Respects related (walk >>= next) :=
  Agrees.bind first rest

theorem reading {reading : Except Misreading α} {next : α → Walk β}
    (rest : ∀ value, reading = .ok value → Respects related (next value)) :
    Respects related (Walk.ofReading reading >>= next) :=
  Agrees.reading rest

variable {setting : Setting} {compile : TypeSpec → Walk Schema}

theorem definitionBody (definition : Definition)
    (valid : ∀ spec, definition.Mentions spec → Respects related (compile spec)) :
    Respects related (setting.definitionBody compile definition) :=
  Agrees.definitionBody definition valid

theorem parameters {name : String} {parameters : List Parameter}
    (valid : ∀ spec, (Definition.input name parameters).Mentions spec → Respects related (compile spec)) :
    Respects related (Walk.parameters compile (.checked (.input name parameters))) :=
  Agrees.parameters _ fun spec mentions => valid spec (mentions _ rfl)

end Respects

end Walk

end Schemata
