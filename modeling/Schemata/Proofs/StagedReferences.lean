import Schemata.Proofs.ExpandedReferences
import Schemata.Proofs.RestingReferences

/-! References in the middle of a call. The memory and the table that earlier references of the call have left make
no difference: a reference compiles as at the beginning of a call, whether that begins with the table with which
this one began or with the table that it has come to. -/

namespace Schemata

namespace Walk

variable {post postToo : α → Progress → Progress → Prop}
  {first second third : EStateM.Result CompileError Progress α}

/-- Two runs that go along with one and the same third one go along with each other. -/
theorem Tallies.join (one : Tallies post first third) (other : Tallies postToo second third) :
    Tallies (fun value here there => ∃ last, post value here last ∧ postToo value there last) first second := by
  cases one with
  | ok known =>
    cases other with
    | ok knownToo => exact .ok ⟨_, known, knownToo⟩
  | error =>
    cases other with
    | error => exact .error

end Walk

namespace Setting

/-- Where a call stands that began with a table and has compiled some references since. -/
inductive Staged (setting : Setting) (table : Table) (progress : Progress) : Prop where
  | hoisting (hoists : setting.hoisting = true) (keeps : setting.Keeps (Record.names table) [] progress)
      (grown : ∀ name ∈ Record.names table, name ∈ Record.names progress.table)
  | inline (inline : setting.hoisting = false) (still : progress.table = table)
      (known : ∀ entry ∈ progress.known, setting.Expands entry.1 entry.2)

variable {setting : Setting} {spec : TypeSpec} {ahead behind : Progress}

theorem Staged.begin (fresh : ahead.known = []) : setting.Staged ahead.table ahead := by
  have nothing {property : TypeSpec × Schema → Prop} : ∀ entry ∈ ahead.known, property entry := by
    simp [fresh]
  cases hoists : setting.hoisting with
  | true => exact .hoisting hoists ⟨nothing, fun _ => .inl⟩ fun _ => id
  | false => exact .inline hoists rfl nothing

/-- What was compiled before in the same call makes no difference, neither if another call begins where this
one began nor if it begins where this one stands. -/
private theorem Staged.absent (built : setting.catalog.Registered) {table : Table}
    (staged : setting.Staged table ahead) (begins : behind.table = table ∨ behind.table = ahead.table) :
    Walk.Tallies (fun _ one other => setting.Staged table one ∧ (behind.table = ahead.table → other.table = one.table))
      ((compileSpec setting [] spec).run ahead) ((compileSpecWith .absent setting [] spec).run behind) := by
  rw [← compileSpecWith_memoized]
  cases staged with
  | inline inline still known =>
    have chainless : setting.Follows [] spec := by simp [Setting.Follows]
    have same : behind.table = table := begins.elim id (·.trans still)
    have holds := (setting.expandingInTandem built inline table).holds_compileSpecWith [] spec chainless
    refine (holds ahead behind ⟨still, same, known⟩).imp ?_
    intro schema one other after
    obtain ⟨⟨stillOne, stillOther, known⟩, -, -⟩ := after
    exact ⟨.inline inline stillOne known, fun _ => stillOther.trans stillOne.symm⟩
  | hoisting hoists keeps grown =>
    have trails : Trails (Record.names table) (behind.table = ahead.table) ahead behind := by
      rcases begins with same | same
      · exact ⟨same ▸ fun _ => id, same ▸ grown, id⟩
      · exact ⟨same ▸ grown, same ▸ fun _ => id, id⟩
    let discipline := setting.restingInTandem built hoists (Record.names table) (behind.table = ahead.table)
    have holds := discipline.holds_compileSpecWith [] spec trivial
    refine (holds ahead behind ⟨keeps, trails⟩).imp fun schema one other after => ?_
    obtain ⟨⟨keeps, trails⟩, further, -⟩ := after
    exact ⟨.hoisting hoists keeps fun name member => further name (grown name member), trails.equal⟩

/-- In the middle of a call a reference compiles as at the beginning of one. -/
theorem Staged.anew (built : setting.catalog.Registered) {table : Table} (staged : setting.Staged table ahead)
    (begins : behind.table = table ∨ behind.table = ahead.table) (fresh : behind.known = []) :
    Walk.Tallies (fun _ one other => setting.Staged table one ∧ (behind.table = ahead.table → other.table = one.table))
      ((compileSpec setting [] spec).run ahead) ((compileSpec setting [] spec).run behind) := by
  refine ((staged.absent built begins).join ((Staged.begin fresh).absent built (.inl rfl))).imp ?_
  intro schema one other after
  obtain ⟨last, ⟨later, equal⟩, -, same⟩ := after
  exact ⟨later, fun asked => (same rfl).symm.trans (equal asked)⟩

/-- An input type is refused wherever it is met. -/
theorem Staged.input (built : setting.catalog.Registered) {table : Table} (staged : setting.Staged table ahead)
    {name : String} {required nullable : Bool} {entry : Entry}
    (classified : classify setting.catalog setting.registry name = .ok (.entry .input entry)) :
    ∃ after, (compileSpec setting [] (.named name required nullable)).run ahead =
      .error (.invalidReference (.written (.text (TypeSpec.named name required nullable).render)) (.nestedInput name))
        after := by
  have tallies := @Staged.absent setting (.named name required nullable) ahead ahead built table staged (.inr rfl)
  rw [compileSpecWith_eq, Memory.absent, Setting.anew, compileNameWith_eq, classified] at tallies
  generalize (compileSpec setting [] (.named name required nullable)).run ahead = here at tallies
  cases tallies with
  | error => exact ⟨_, rfl⟩

end Setting

end Schemata
