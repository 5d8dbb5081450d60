import Schemata.Compile.Walk
import Mathlib.Data.List.Forall2

/-! Proof rules for walks that succeed. A rule system fixes an invariant of the progress and the
ways in which the progress may grow; what is claimed of a walk then only has to be shown for its
steps. Nothing is said here about walks that fail. -/

namespace Schemata

namespace Walk

@[simp] theorem run_pure_ok {value result : α} {before after : Progress} :
    (pure value : Walk α).run before = .ok result after ↔ result = value ∧ after = before := by
  constructor
  · intro run; cases run; exact ⟨rfl, rfl⟩
  · intro same
    obtain ⟨rfl, rfl⟩ := same
    rfl

@[simp] theorem run_throw_ok {error : CompileError} {result : α} {before after : Progress} :
    ¬ (throw error : Walk α).run before = .ok result after := by
  intro run; cases run

@[simp] theorem run_bind_ok {walk : Walk α} {next : α → Walk β} {result : β} {before after : Progress} :
    (walk >>= next).run before = .ok result after ↔
      ∃ value middle, walk.run before = .ok value middle ∧ (next value).run middle = .ok result after := by
  rw [EStateM.run_bind]
  cases walk.run before with
  | ok value middle =>
    constructor
    · exact fun run => ⟨value, middle, rfl, run⟩
    · intro found
      obtain ⟨_, _, same, run⟩ := found
      cases same
      exact run
  | error error middle => simp

@[simp] theorem run_ofAccess_ok {access : Except Fault α} {result : α} {before after : Progress} :
    (ofAccess access).run before = .ok result after ↔ access = .ok result ∧ after = before := by
  cases access with
  | ok value =>
    rw [ofAccess, run_pure_ok, Except.ok.injEq, eq_comm]
  | error error =>
    simp [ofAccess]

@[simp] theorem run_ofReading_ok {reading : Except Misreading α} {result : α} {before after : Progress} :
    (ofReading reading).run before = .ok result after ↔ reading = .ok result ∧ after = before := by
  cases reading with
  | ok value =>
    rw [ofReading, run_pure_ok, Except.ok.injEq, eq_comm]
  | error error =>
    simp [ofReading]

end Walk

def Setting.widened (setting : Setting) (nullable : Bool) (schema : Schema) : Except Fault Schema :=
  if nullable then schema.nullable? setting.dialect.flagged else .ok schema

theorem Setting.widen_eq (setting : Setting) (nullable : Bool) (schema : Schema) :
    setting.widen nullable schema = .ofAccess (setting.widened nullable schema) := by
  cases nullable <;> rfl

def Schema.described (title description : Option Value) (schema : Schema) : Except Fault Schema := do
  (← schema.annotate "title" title).annotate "description" description

theorem Schema.described_eq_ok {title description : Option Value} {schema changed : Schema} :
    schema.described title description = .ok changed ↔
      ∃ titled, schema.annotate "title" title = .ok titled ∧ titled.annotate "description" description = .ok changed := by
  unfold described
  cases schema.annotate "title" title with
  | error fault => exact ⟨nofun, nofun⟩
  | ok titled => exact ⟨fun done => ⟨titled, rfl, done⟩, fun ⟨_, same, done⟩ => Except.ok.inj same ▸ done⟩

theorem Walk.describe_eq (title description : Option Value) (schema : Schema) :
    Walk.describe title description schema = .ofAccess (schema.described title description) := by
  unfold Walk.describe Schema.described
  cases schema.annotate "title" title <;> rfl

structure Rules where
  invariant : Progress → Prop
  growth : Progress → Progress → Prop
  refl : ∀ progress, growth progress progress
  trans : ∀ {first second third}, growth first second → growth second third → growth first third

def Rules.free : Rules := ⟨fun _ => True, fun _ _ => True, fun _ => trivial, fun _ _ => trivial⟩

namespace Rules

variable (rules : Rules)

def Stable (assertion : Progress → Prop) : Prop :=
  ∀ before after, rules.growth before after → assertion before → assertion after

/-- From the invariant, the walk can only succeed with the invariant, some growth and the
assertion about its value. -/
def Ensures (post : α → Progress → Prop) (walk : Walk α) : Prop :=
  ∀ before value after, rules.invariant before → walk.run before = .ok value after →
    rules.invariant after ∧ rules.growth before after ∧ post value after

variable {rules}

protected theorem Ensures.throw {post : α → Progress → Prop} (error : CompileError) :
    rules.Ensures post (throw error : Walk α) :=
  fun _ _ _ _ run => (Walk.run_throw_ok run).elim

theorem Ensures.weaken {walk : Walk α} {first second : α → Progress → Prop} (valid : rules.Ensures first walk)
    (implies : ∀ value after, first value after → second value after) : rules.Ensures second walk := by
  intro before value after kept run
  obtain ⟨later, grown, shown⟩ := valid before value after kept run
  exact ⟨later, grown, implies value after shown⟩

theorem Ensures.bind {walk : Walk α} {next : α → Walk β} {first : α → Progress → Prop}
    {second : β → Progress → Prop} (valid : rules.Ensures first walk)
    (rest : ∀ value current, rules.invariant current → first value current →
      ∀ result after, (next value).run current = .ok result after →
        rules.invariant after ∧ rules.growth current after ∧ second result after) :
    rules.Ensures second (walk >>= next) := by
  intro before result after kept run
  obtain ⟨value, middle, ran, continued⟩ := Walk.run_bind_ok.mp run
  obtain ⟨inner, grown, shown⟩ := valid before value middle kept ran
  obtain ⟨later, further, final⟩ := rest value middle inner shown result after continued
  exact ⟨later, rules.trans grown further, final⟩

/-- What holds of every step when it is taken holds of all steps in the end. -/
theorem Ensures.each {step : α → Walk β} {shows : α → β → Progress → Prop}
    (stable : ∀ item value, rules.Stable (shows item value)) {items : List α}
    (steps : ∀ item ∈ items, rules.Ensures (shows item) (step item)) :
    rules.Ensures (fun values after => List.Forall₂ (fun item value => shows item value after) items values)
      (Walk.each step items) := by
  induction items with
  | nil =>
    intro before values after kept run
    obtain ⟨rfl, rfl⟩ := Walk.run_pure_ok.mp run
    exact ⟨kept, rules.refl _, .nil⟩
  | cons item rest ih =>
    apply (steps item List.mem_cons_self).bind
    intro first current kept shown values after run
    simp only [Walk.run_bind_ok, Walk.run_pure_ok] at run
    obtain ⟨others, middle, ran, rfl, rfl⟩ := run
    obtain ⟨later, grown, all⟩ := ih (fun item member => steps item (List.mem_cons_of_mem _ member))
      current others _ kept ran
    exact ⟨later, grown, .cons (stable item first _ _ grown shown) all⟩

def Moves (rules : Rules) (walk : Walk α) : Prop := rules.Ensures (fun _ _ => True) walk

theorem Ensures.moves {walk : Walk α} {post : α → Progress → Prop} (valid : rules.Ensures post walk) :
    rules.Moves walk :=
  valid.weaken fun _ _ _ => trivial

end Rules

end Schemata
