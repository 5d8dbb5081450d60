import Schemata.Proofs.WalkFailures

/-! One walk followed by another. If the first succeeds so does the second, with a value that is like the
first one, and if the first fails the second fails with the same error. Only a first walk that complains
of recursion may be followed by anything. -/

namespace Schemata

namespace Walk

inductive Follows (related : Progress → Progress → Prop) (post : α → β → Prop) :
    EStateM.Result CompileError Progress α → EStateM.Result CompileError Progress β → Prop where
  | ok {value : α} {twin : β} {first second : Progress} (near : related first second) (own : post value twin) :
      Follows related post (.ok value first) (.ok twin second)
  | error {error : CompileError} {first second : Progress} :
      Follows related post (.error error first) (.error error second)
  | endless {chain : List Name} {first : Progress} {result : EStateM.Result CompileError Progress β} :
      Follows related post (.error (.unterminatedRecursion chain) first) result

def Leads (related : Progress → Progress → Prop) (post : α → β → Prop) (walk : Walk α) (twin : Walk β) : Prop :=
  ∀ first second, related first second → Follows related post (walk.run first) (twin.run second)

namespace Leads

variable {related : Progress → Progress → Prop}

theorem weaken {post weaker : α → β → Prop} {walk : Walk α} {twin : Walk β} (leads : Leads related post walk twin)
    (implies : ∀ value other, post value other → weaker value other) : Leads related weaker walk twin := by
  intro first second near
  have follows := leads first second near
  generalize walk.run first = one at follows ⊢
  generalize twin.run second = other at follows ⊢
  cases follows with
  | ok near own => exact .ok near (implies _ _ own)
  | error => exact .error
  | endless => exact .endless

protected theorem pure {post : α → β → Prop} {value : α} {other : β} (own : post value other) :
    Leads related post (pure value) (pure other) :=
  fun _ _ near => .ok near own

protected theorem throw {post : α → β → Prop} (error : CompileError) :
    Leads related post (throw error : Walk α) (throw error : Walk β) :=
  fun _ _ _ => .error

protected theorem bind {post : α → β → Prop} {final : γ → δ → Prop} {walk : Walk α} {twin : Walk β} {next : α → Walk γ}
    {nextToo : β → Walk δ} (first : Leads related post walk twin)
    (rest : ∀ value other, post value other → Leads related final (next value) (nextToo other)) :
    Leads related final (walk >>= next) (twin >>= nextToo) := by
  intro one other near
  have follows := first one other near
  rw [EStateM.run_bind, EStateM.run_bind]
  generalize walk.run one = here at follows
  generalize twin.run other = there at follows
  cases follows with
  | ok near own => exact rest _ _ own _ _ near
  | error => exact .error
  | endless => exact .endless

theorem reading {post : β → γ → Prop} {reading : Except Misreading α} {next : α → Walk β} {nextToo : α → Walk γ}
    (rest : ∀ value, reading = .ok value → Leads related post (next value) (nextToo value)) :
    Leads related post (Walk.ofReading reading >>= next) (Walk.ofReading reading >>= nextToo) := by
  cases reading with
  | ok value => exact rest value rfl
  | error misreading =>
    intro first second _
    exact .error

theorem each {post : β → γ → Prop} {step : α → Walk β} {twin : α → Walk γ} {items : List α}
    (steps : ∀ item ∈ items, Leads related post (step item) (twin item)) :
    Leads related (List.Forall₂ post) (Walk.each step items) (Walk.each twin items) := by
  induction items with
  | nil => exact Leads.pure .nil
  | cons item rest ih =>
    apply Leads.bind (steps item List.mem_cons_self)
    intro value other own
    apply Leads.bind (ih fun item member => steps item (List.mem_cons_of_mem _ member))
    intro values others all
    exact Leads.pure (.cons own all)

end Leads

end Walk

/-- Both schemas are the same, or in both of them keywords can be set. -/
def Schema.Level (schema other : Schema) : Prop := schema = other ∨ schema.IsObject ∧ other.IsObject

namespace Walk.Leads

variable {related : Progress → Progress → Prop}

theorem described {schema other : Schema} (level : schema.Level other) (title description : Option Value) :
    Leads related Schema.Level (.ofAccess (schema.described title description))
      (.ofAccess (other.described title description)) := by
  rcases level with rfl | ⟨object, objectToo⟩
  · cases schema.described title description with
    | ok described => exact Leads.pure (.inl rfl)
    | error fault => exact Leads.throw _
  · obtain ⟨described, here, object⟩ := object.described title description
    obtain ⟨describedToo, there, objectToo⟩ := objectToo.described title description
    rw [here, there]
    exact Leads.pure (.inr ⟨object, objectToo⟩)

variable {setting twin : Setting} {compile compileToo : TypeSpec → Walk Schema}

private theorem field (same : setting.dialect = twin.dialect) {field : Field}
    (valid : ∀ spec, field.override? = none → TypeSpec.read true field.type = .ok spec →
      Leads related Schema.Level (compile spec) (compileToo spec)) :
    Leads related (fun _ _ => True) (setting.field compile field) (twin.field compileToo field) := by
  rw [Setting.field_eq, Setting.field_eq]
  apply reading
  intro spec read
  have typed : Leads related Schema.Level (setting.fieldSchema compile field spec)
      (twin.fieldSchema compileToo field spec) := by
    unfold Setting.fieldSchema
    cases given : field.override? with
    | none => exact valid spec given read
    | some choices =>
      obtain ⟨schema, widened, -⟩ := setting.widened_choice spec.nullable (.texts choices)
      have widenedToo : twin.widened spec.nullable (.choice (.texts choices)) = .ok schema := by
        rw [← widened, Setting.widened, Setting.widened, same]
      dsimp only
      rw [widened, widenedToo]
      exact Leads.pure (.inl rfl)
  apply Leads.bind typed
  intro schema other level
  apply Leads.bind (described level _ _)
  intro _ _ _
  exact Leads.pure trivial

private theorem mapBody {valueType sample : Option Value}
    (valid : ∀ type spec, valueType = some type → TypeSpec.read false type = .ok spec →
      Leads related Schema.Level (compile spec) (compileToo spec)) :
    Leads related Schema.Level (Walk.mapBody compile .object valueType sample)
      (Walk.mapBody compileToo .object valueType sample) := by
  have annotated (keywords keywordsToo : Schema) (own : keywords.IsObject ∧ keywordsToo.IsObject) :
      Leads related Schema.Level (Walk.ofAccess (keywords.annotate "example" sample))
        (Walk.ofAccess (keywordsToo.annotate "example" sample)) := by
    cases keywords with
    | data => exact own.1.elim
    | keywords =>
      cases keywordsToo with
      | data => exact own.2.elim
      | keywords => cases sample <;> exact Leads.pure (.inr ⟨trivial, trivial⟩)
  rw [Walk.mapBody_eq, Walk.mapBody_eq]
  refine Leads.bind ?_ annotated
  cases valueType with
  | none => exact Leads.pure ⟨trivial, trivial⟩
  | some type =>
    apply Leads.bind (reading fun spec read => valid type spec rfl read)
    intro values other _
    exact Leads.pure ⟨trivial, trivial⟩

theorem definitionBody (same : setting.dialect = twin.dialect) (definition : Definition)
    (valid : ∀ spec, definition.Mentions spec → Leads related Schema.Level (compile spec) (compileToo spec)) :
    Leads related Schema.Level (setting.definitionBody compile definition)
      (twin.definitionBody compileToo definition) := by
  cases definition with
  | scalar | sum => exact Leads.pure (.inl rfl)
  | input => exact Leads.throw _
  | product name fields title description contentType =>
    refine Leads.bind (each fun field member => Leads.field same ?_) ?_
    · exact fun spec plain read => valid spec ⟨field, member, plain, read⟩
    · exact fun _ _ _ => Leads.pure (.inr ⟨trivial, trivial⟩)
  | map name valueType sample =>
    apply Leads.mapBody
    exact fun type spec given read => valid spec ⟨type, given, read⟩
  | union name alternatives =>
    have steps (type : Value) (member : type ∈ alternatives) :
        Leads related Schema.Level (Walk.reference compile type) (Walk.reference compileToo type) :=
      reading fun spec read => valid spec ⟨type, member, read⟩
    exact Leads.bind (each steps) fun _ _ _ => Leads.pure (.inr ⟨trivial, trivial⟩)

theorem parameters {name : String} {parameters : List Parameter}
    (valid : ∀ spec, (Definition.input name parameters).Mentions spec →
      Leads related Schema.Level (compile spec) (compileToo spec)) :
    Leads related (fun _ _ => True) (Walk.parameters compile (.checked (.input name parameters)))
      (Walk.parameters compileToo (.checked (.input name parameters))) := by
  have steps (parameter : Parameter) (member : parameter ∈ parameters) :
      Leads related (fun _ _ => True) (Walk.parameter compile parameter) (Walk.parameter compileToo parameter) := by
    apply reading
    intro (location, spec) read
    apply Leads.bind (valid spec ⟨parameter, member, location, read⟩)
    exact fun _ _ _ => Leads.pure trivial
  exact (each steps).weaken fun _ _ _ => trivial

end Walk.Leads

end Schemata
