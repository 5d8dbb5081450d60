import Schemata.Proofs.BodyShapes

/-! What the body of a hand-written object looks like when its references are shown in a given way. Such an
object may fail to be read at any of its attributes; where it does not, it says as much as a definition. The
properties of a product are written out as data, since its fields may be named by anything. -/

namespace Schemata

section Shows

variable (setting : Setting) (shows : TypeSpec → Schema → Prop)

def Setting.ShowsHandType (member : Value) (spec : TypeSpec) (schema : Schema) : Prop :=
  match member.givenPart? "enum" with
  | some choices => ∃ values, choices.members? = some values ∧
      setting.widened spec.nullable (.choice (.list values)) = .ok schema
  | none => shows spec schema

def Setting.ShowsHandField (member : Value) (compiled : CompiledField Value) : Prop :=
  ∃ type spec schema described name, member.part "type" = .ok type ∧ TypeSpec.read true type = .ok spec ∧
    setting.ShowsHandType shows member spec schema ∧
    schema.described (member.givenPart? "title") (member.givenPart? "description") = .ok described ∧
    member.part "name" = .ok name ∧ compiled = ⟨name, described, spec.required⟩

def ShowsHandMap (own : Schema) (valueType : Option Value) (keywords : Schema) : Prop :=
  match valueType with
  | none => keywords = own
  | some type => ∃ values, ShowsReference shows type values ∧
    own.set "additionalProperties" (.schema values) = .ok keywords

def Setting.ShowsShape (kind : Kind) (shape : Shape) (body : Schema) : Prop :=
  match kind with
  | .product => ∃ members compiled, shape.members "fields" = .ok members ∧
      List.Forall₂ (setting.ShowsHandField shows) members compiled ∧
      body = CompiledField.body
        (.data (.map (Value.ofEntries (compiled.map fun field => (field.name, field.schema.toValue)))))
        (CompiledField.requiredNames compiled) (shape.given? "title") (shape.given? "description")
  | .map => ∃ own valueType keywords, shape.schema = .ok own ∧ shape.valueType? = .ok valueType ∧
      ShowsHandMap shows (.ofValue own) valueType keywords ∧
      keywords.annotate "example" (shape.given? "example") = .ok body
  | .union => ∃ alternatives schemas, shape.members "allowed_types" = .ok alternatives ∧
      List.Forall₂ (ShowsReference shows) alternatives schemas ∧ body = .oneOf schemas
  | .scalar | .sum | .input => ∃ own, shape.schema = .ok own ∧ body = .ofValue own

end Shows

section Imp

variable {setting : Setting} {shows other : TypeSpec → Schema → Prop}
  (implies : ∀ spec schema, shows spec schema → other spec schema)

include implies

theorem Setting.ShowsHandField.imp {member : Value} {compiled : CompiledField Value}
    (shown : setting.ShowsHandField shows member compiled) : setting.ShowsHandField other member compiled := by
  obtain ⟨type, spec, schema, described, name, given, read, typed, rest⟩ := shown
  refine ⟨type, spec, schema, described, name, given, read, ?_, rest⟩
  unfold ShowsHandType at typed ⊢
  split at typed
  next => exact typed
  next => exact implies spec schema typed

theorem Setting.ShowsShape.imp {kind : Kind} {shape : Shape} {body : Schema}
    (shown : setting.ShowsShape shows kind shape body) : setting.ShowsShape other kind shape body := by
  cases kind with
  | scalar | sum | input => exact shown
  | product =>
    obtain ⟨members, compiled, given, all, same⟩ := shown
    exact ⟨members, compiled, given, all.imp fun _ _ own => own.imp implies, same⟩
  | map =>
    obtain ⟨own, valueType, keywords, read, typed, shown, annotated⟩ := shown
    refine ⟨own, valueType, keywords, read, typed, ?_, annotated⟩
    cases valueType with
    | none => exact shown
    | some type =>
      obtain ⟨values, shown, set⟩ := shown
      exact ⟨values, shown.imp fun spec schema _ => implies spec schema, set⟩
  | union =>
    obtain ⟨alternatives, schemas, given, all, same⟩ := shown
    exact ⟨alternatives, schemas, given,
      all.imp fun _ _ own => own.imp fun spec schema _ => implies spec schema, same⟩

end Imp

variable {setting : Setting} {rules : Rules} {compile : TypeSpec → Walk Schema}
  {shown : TypeSpec → Schema → Progress → Prop}

private theorem Rules.Ensures.handField (member : Value) (valid : ∀ spec, rules.Ensures (shown spec) (compile spec)) :
    rules.Ensures (fun compiled after =>
      setting.ShowsHandField (fun spec schema => shown spec schema after) member compiled)
      (setting.handField compile member) := by
  intro before compiled after kept run
  simp only [Setting.handField_eq, Walk.run_bind_ok, Walk.run_ofAccess_ok, Walk.run_ofReading_ok] at run
  obtain ⟨type, _, ⟨given, rfl⟩, spec, start, ⟨read, rfl⟩, schema, _, ran, described, _, ⟨annotated, rfl⟩, name, _,
    ⟨named, rfl⟩, keyed, rfl⟩ := run
  have typed : rules.invariant after ∧ rules.growth start after ∧
      setting.ShowsHandType (fun spec schema => shown spec schema after) member spec schema := by
    cases asked : member.givenPart? "enum" with
    | none =>
      simp only [Setting.handSchema, asked] at ran
      simp only [Setting.ShowsHandType, asked]
      exact valid spec _ schema _ kept ran
    | some choices =>
      simp only [Setting.handSchema, asked] at ran
      simp only [Setting.ShowsHandType, asked]
      cases listed : choices.members? with
      | none =>
        rw [listed] at ran
        exact (Walk.run_throw_ok ran).elim
      | some values =>
        rw [listed] at ran
        obtain ⟨widened, rfl⟩ := Walk.run_ofAccess_ok.mp ran
        exact ⟨kept, rules.refl _, values, rfl, widened⟩
  obtain ⟨later, grown, own⟩ := typed
  refine ⟨later, grown, type, spec, schema, described, name, given, read, own, annotated, named, ?_⟩
  split at keyed
  next => exact (Except.ok.inj keyed).symm
  next => cases keyed

private theorem Rules.Ensures.handMap (own : Schema) (valueType : Option Value)
    (valid : ∀ spec, rules.Ensures (shown spec) (compile spec)) :
    rules.Ensures
      (fun keywords after => ShowsHandMap (fun spec schema => shown spec schema after) own valueType keywords)
      (Walk.mapKeywords compile own valueType) := by
  intro before keywords after kept run
  cases valueType with
  | none =>
    obtain ⟨rfl, rfl⟩ := Walk.run_pure_ok.mp run
    exact ⟨kept, rules.refl _, rfl⟩
  | some type =>
    simp only [Walk.mapKeywords, Walk.run_bind_ok, Walk.run_ofAccess_ok] at run
    obtain ⟨values, _, ran, set, rfl⟩ := run
    obtain ⟨later, grown, typed⟩ := Rules.Ensures.reference type (fun spec _ => valid spec) before values _ kept ran
    exact ⟨later, grown, values, typed, set⟩

/-- A walk through the body of a hand-written object that succeeds shows every reference as the walk of that
reference showed it. -/
theorem Rules.Ensures.shapeBody (kind : Kind) (shape : Shape) (stable : ∀ spec schema, rules.Stable (shown spec schema))
    (valid : ∀ spec, rules.Ensures (shown spec) (compile spec)) :
    rules.Ensures (fun body after => setting.ShowsShape (fun spec schema => shown spec schema after) kind shape body)
      (setting.shapeBody compile kind shape) := by
  intro before body after kept run
  cases kind with
  | product =>
    simp only [Setting.shapeBody, Walk.run_bind_ok, Walk.run_ofAccess_ok, Walk.run_pure_ok] at run
    obtain ⟨members, _, ⟨given, rfl⟩, compiled, _, ran, rfl, rfl⟩ := run
    obtain ⟨later, grown, all⟩ := Ensures.each
      (fun _ _ before after grown own => own.imp fun spec schema => stable spec schema before after grown)
      (fun member _ => Ensures.handField member valid) _ compiled _ kept ran
    exact ⟨later, grown, members, compiled, given, all, rfl⟩
  | map =>
    simp only [Setting.shapeBody, Walk.mapBody_eq, Walk.run_bind_ok, Walk.run_ofAccess_ok] at run
    obtain ⟨own, _, ⟨read, rfl⟩, valueType, _, ⟨typed, rfl⟩, keywords, _, ran, annotated, rfl⟩ := run
    obtain ⟨later, grown, shows⟩ := Ensures.handMap (.ofValue own) valueType valid _ keywords _ kept ran
    exact ⟨later, grown, own, valueType, keywords, read, typed, shows, annotated⟩
  | union =>
    simp only [Setting.shapeBody, Walk.run_bind_ok, Walk.run_ofAccess_ok, Walk.run_pure_ok] at run
    obtain ⟨alternatives, _, ⟨given, rfl⟩, schemas, _, ran, rfl, rfl⟩ := run
    obtain ⟨later, grown, all⟩ := Ensures.each (Rules.Stable.showsReference stable)
      (fun type _ => Ensures.reference type fun spec _ => valid spec) _ schemas _ kept ran
    exact ⟨later, grown, alternatives, schemas, given, all, rfl⟩
  | scalar | sum | input =>
    simp only [Setting.shapeBody, Walk.run_bind_ok, Walk.run_ofAccess_ok, Walk.run_pure_ok] at run
    obtain ⟨own, _, ⟨read, rfl⟩, rfl, rfl⟩ := run
    exact ⟨kept, rules.refl _, own, read, rfl⟩

end Schemata
