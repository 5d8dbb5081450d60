import Schemata.Proofs.AdmissibleReferences
import Schemata.Proofs.BodyPairs

/-! What a reference is when every type is written out where it occurs. That schema is found along the
references alone, and only one can be found, so it needs no chain and no memory. It cannot be found at
all where the references go round in a circle. -/

namespace Schemata

namespace Setting

variable (setting : Setting)

/-- The schema of a reference with all types written out, where it is known what the body of a type may be when
references are shown in some way. How the references of a body are shown is kept apart, so that what holds of them can
be gone through with the body. -/
inductive WritesOut (bodies : (TypeSpec → Schema → Prop) → Kind → Entry → Schema → Prop) : TypeSpec → Schema → Prop where
  | primitive {name required nullable fragment schema}
      (classified : classify setting.catalog setting.registry name = .ok (.primitive fragment))
      (widened : setting.widened nullable (.ofValue fragment) = .ok schema) :
      WritesOut bodies (.named name required nullable) schema
  | scalar {name required nullable entry fragment schema}
      (classified : classify setting.catalog setting.registry name = .ok (.entry .scalar entry))
      (read : entry.fragment = .ok fragment) (widened : setting.widened nullable (.ofValue fragment) = .ok schema) :
      WritesOut bodies (.named name required nullable) schema
  | named {name required nullable kind entry body schema} {shows : TypeSpec → Schema → Prop}
      (kindNamed : kind.isNamed = true)
      (classified : classify setting.catalog setting.registry name = .ok (.entry kind entry))
      (shown : bodies shows kind entry body) (inner : ∀ spec schema, shows spec schema → WritesOut bodies spec schema)
      (widened : setting.widened nullable body = .ok schema) : WritesOut bodies (.named name required nullable) schema
  | array {element required nullable items schema} (inner : WritesOut bodies element items)
      (widened : setting.widened nullable (.array items) = .ok schema) :
      WritesOut bodies (.array element required nullable) schema

def ShowsChecked (shows : TypeSpec → Schema → Prop) (kind : Kind) (entry : Entry) (body : Schema) : Prop :=
  ∃ definition, entry = .checked definition ∧ definition.kind = kind ∧ setting.ShowsBody shows definition body

/-- The schema of a reference with all types written out, all of which were checked. -/
def Inlines : TypeSpec → Schema → Prop := setting.WritesOut setting.ShowsChecked

variable {setting} {spec : TypeSpec} {schema : Schema}

namespace WritesOut

variable {bodies : (TypeSpec → Schema → Prop) → Kind → Entry → Schema → Prop}

theorem optional : setting.WritesOut bodies spec.optional schema ↔ setting.WritesOut bodies spec schema := by
  cases spec with
  | named name required nullable =>
    constructor
    all_goals
      intro writes
      cases writes with
      | primitive classified widened => exact .primitive classified widened
      | scalar classified read widened => exact .scalar classified read widened
      | named kindNamed classified shown inner widened => exact .named kindNamed classified shown inner widened
  | array element required nullable =>
    constructor
    all_goals
      intro writes
      cases writes with
      | array inner widened => exact .array inner widened

/-- A reference is written out in one way if this holds of a body whenever it holds of the references in it. -/
theorem unique (functional : ∀ {shows showsToo kind entry first second}, kind.isNamed = true →
      bodies shows kind entry first → bodies showsToo kind entry second →
      (∀ spec one other, shows spec one → showsToo spec other → one = other) → first = second)
    {other : Schema} (one : setting.WritesOut bodies spec schema) (two : setting.WritesOut bodies spec other) :
    schema = other := by
  induction one generalizing other with
  | primitive classified widened =>
    cases two with
    | primitive again widenedToo =>
      cases classified.symm.trans again
      exact Except.ok.inj (widened.symm.trans widenedToo)
    | scalar again | named _ again => cases classified.symm.trans again
  | scalar classified read widened =>
    cases two with
    | primitive again => cases classified.symm.trans again
    | scalar again readToo widenedToo =>
      cases classified.symm.trans again
      cases read.symm.trans readToo
      exact Except.ok.inj (widened.symm.trans widenedToo)
    | named kindNamed again =>
      cases classified.symm.trans again
      cases kindNamed
  | named kindNamed classified shown _ widened ih =>
    cases two with
    | primitive again => cases classified.symm.trans again
    | scalar again =>
      cases classified.symm.trans again
      cases kindNamed
    | named _ again shownToo innerToo widenedToo =>
      cases classified.symm.trans again
      cases functional kindNamed shown shownToo fun spec one other first second =>
        ih spec one first (innerToo spec other second)
      exact Except.ok.inj (widened.symm.trans widenedToo)
  | array _ widened ih =>
    cases two with
    | array inner widenedToo =>
      cases ih inner
      exact Except.ok.inj (widened.symm.trans widenedToo)

theorem noInput (writes : setting.WritesOut bodies spec schema) {entry : Entry} :
    classify setting.catalog setting.registry spec.base ≠ .ok (.entry .input entry) := by
  induction writes with
  | primitive classified | scalar classified =>
    intro again
    cases classified.symm.trans again
  | named kindNamed classified =>
    intro again
    cases classified.symm.trans again
    cases kindNamed
  | array _ _ ih => exact ih

end WritesOut

namespace Inlines

theorem named {name : String} {required nullable : Bool} {definition : Definition} {body : Schema}
    {shows : TypeSpec → Schema → Prop} (kind : definition.kind.isNamed = true)
    (classified : classify setting.catalog setting.registry name = .ok (.entry definition.kind (.checked definition)))
    (shown : setting.ShowsBody shows definition body) (inner : ∀ spec schema, shows spec schema → setting.Inlines spec schema)
    (widened : setting.widened nullable body = .ok schema) : setting.Inlines (.named name required nullable) schema :=
  WritesOut.named kind classified ⟨definition, rfl, rfl, shown⟩ inner widened

theorem of_supplies {name : String} {fragment : Value} {required nullable : Bool}
    (supplies : setting.catalog.Supplies setting.registry name fragment)
    (widened : setting.widened nullable (.ofValue fragment) = .ok schema) :
    setting.Inlines (.named name required nullable) schema := by
  cases supplies with
  | primitive classified => exact WritesOut.primitive classified widened
  | scalar classified => exact WritesOut.scalar classified rfl widened

theorem optional : setting.Inlines spec.optional schema ↔ setting.Inlines spec schema :=
  WritesOut.optional

theorem unique {other : Schema} (one : setting.Inlines spec schema) (two : setting.Inlines spec other) :
    schema = other := by
  refine WritesOut.unique (fun kindNamed shown shownToo same => ?_) one two
  obtain ⟨definition, rfl, rfl, shown⟩ := shown
  obtain ⟨_, again, -, shownToo⟩ := shownToo
  cases again
  have equal : Schema.Pairs (· = ·) _ _ := shown.pairs kindNamed rfl shownToo
    (fun spec one other _ here there => same spec one other here there) fun _ _ _ _ => rfl
  exact equal.eq

/-- What can be written out is not reached from itself. -/
theorem accessible (inlines : setting.Inlines spec schema) {definition : Definition}
    (denotes : setting.catalog.Denotes setting.registry spec definition) :
    Acc (fun one other => setting.catalog.Uses setting.registry other one) definition := by
  induction inlines generalizing definition with
  | primitive classified =>
    cases classified.symm.trans denotes.kind
  | scalar classified =>
    have same := (Classified.entry.inj (Except.ok.inj (classified.symm.trans denotes.kind))).1
    refine ⟨definition, fun other uses => ?_⟩
    obtain ⟨next, mentions, -⟩ := uses
    cases definition with
    | scalar => exact mentions.elim
    | product | sum | map | union | input => cases same
  | named kindNamed classified shown inner _ ih =>
    obtain ⟨_, rfl, -, shown⟩ := shown
    cases classify_checked classified
    obtain ⟨-, same⟩ := Classified.entry.inj (Except.ok.inj (classified.symm.trans denotes.kind))
    cases same
    refine ⟨_, fun other uses => ?_⟩
    obtain ⟨next, mentions, leads⟩ := uses
    obtain ⟨written, own⟩ := shown.mentioned mentions
    exact ih next written own leads
  | array _ _ ih => exact ih (denotes.of_base rfl)

end Inlines

/-- What is remembered stays remembered. -/
theorem isSome_lookup_cons {known : List (TypeSpec × Schema)} {spec key : TypeSpec} {schema : Schema}
    (found : (known.lookup spec).isSome = true) : (((key, schema) :: known).lookup spec).isSome = true := by
  rw [List.lookup_cons]
  split
  · rfl
  · exact found

def inlining (setting : Setting) (inline : setting.hoisting = false) (built : setting.catalog.OfDefinitions) :
    Discipline setting where
  rules _ :=
    { invariant := fun progress => ∀ entry ∈ progress.known, setting.Inlines entry.1 entry.2
      growth := fun before after =>
        ∀ spec, (before.known.lookup spec).isSome = true → (after.known.lookup spec).isSome = true
      refl := fun _ _ => id
      trans := fun first second spec known => second spec (first spec known) }
  admits _ _ := True
  enters _ kind entry := ∃ definition, entry = .checked definition ∧ definition.kind = kind ∧ entry ∈ setting.catalog.toList
  shows _ spec schema _ := setting.Inlines spec schema
  stands _ entry nullable schema _ := ∃ definition body, entry = .checked definition ∧
    setting.ShowsBody setting.Inlines definition body ∧ setting.widened nullable body = .ok schema
  stable _ _ _ _ _ _ inlines := inlines
  silent _ known := ⟨known, fun _ => id⟩
  recalled known _ found := Inlines.optional.mp (known _ (Record.mem_of_lookup found))
  remember known _ inlines :=
    ⟨List.forall_mem_cons.mpr ⟨Inlines.optional.mpr inlines, known⟩, fun _ => isSome_lookup_cons⟩
  element _ := trivial
  array inlines widened := .array inlines widened
  primitive classified widened := .primitive classified widened
  scalar classified read widened := .scalar classified read widened
  named kindNamed classified stood := by
    obtain ⟨definition, body, rfl, shown, widened⟩ := stood
    cases classify_checked classified
    exact .named kindNamed classified shown (fun _ _ => id) widened
  entered _ classified := by
    obtain ⟨definition, rfl⟩ := built.checked (mem_of_classify_eq classified)
    exact ⟨definition, rfl, classify_checked classified, mem_of_classify_eq classified⟩
  mentioned _ _ _ _ _ := trivial
  asked _ _ := trivial
  enter known := known
  inlined _ _ entered _ _ known grown shown widened := by
    obtain ⟨definition, rfl, -, -⟩ := entered
    exact ⟨known, grown, definition, _, rfl, shown, widened⟩
  referred hoisting _ _ _ _ _ := by simp [inline] at hoisting
  hoisted hoisting _ _ _ _ _ _ _ _ _ := by simp [inline] at hoisting

end Setting

end Schemata
