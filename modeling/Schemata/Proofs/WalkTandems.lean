import Schemata.Proofs.CatalogGrowth
import Schemata.Proofs.SettledReferences
import Schemata.Proofs.WalkMemory
import Schemata.Proofs.WalkScripts

/-! Two walks side by side. Both end in the same value or in the same error, and of the value something is known as
well. A body is gone through as its script: whatever it asks is asked of both, one question after another, so that
nothing depends on whether the type was checked or written by hand. -/

namespace Schemata

namespace Script

inductive Shows (shows : TypeSpec → Schema → Prop) : Script α → α → Prop where
  | ends {value : α} : Shows shows (.ends (.ok value)) value
  | asks {spec : TypeSpec} {schema : Schema} {next : Schema → Script α} {value : α} (answered : shows spec schema)
      (rest : Shows shows (next schema) value) : Shows shows (.asks spec next) value

inductive Asks (shows : TypeSpec → Schema → Prop) : Script α → TypeSpec → Prop where
  | here {spec : TypeSpec} {next : Schema → Script α} : Asks shows (.asks spec next) spec
  | later {spec other : TypeSpec} {schema : Schema} {next : Schema → Script α} (answered : shows spec schema)
      (rest : Asks shows (next schema) other) : Asks shows (.asks spec next) other

variable {shows other : TypeSpec → Schema → Prop} {script : Script α} {value : α}

/-- What is shown of a question need only hold where the question is come to. -/
theorem Shows.imp (shown : script.Shows shows value)
    (implies : ∀ spec schema, script.Asks shows spec → shows spec schema → other spec schema) :
    script.Shows other value := by
  induction shown with
  | ends => exact .ends
  | asks answered _ ih =>
    exact .asks (implies _ _ .here answered) (ih fun spec schema asked => implies spec schema (.later answered asked))

theorem Asks.imp {spec : TypeSpec} (asked : script.Asks shows spec)
    (implies : ∀ spec schema, shows spec schema → other spec schema) : script.Asks other spec := by
  induction asked with
  | here => exact .here
  | later answered _ ih => exact .later (implies _ _ answered) ih

/-- A script that is answered alike comes to no question that is not answered. -/
theorem Shows.answers (shown : script.Shows shows value)
    (unique : ∀ spec first second, shows spec first → other spec second → first = second) {spec : TypeSpec}
    (asked : script.Asks other spec) : ∃ schema, shows spec schema := by
  induction shown with
  | ends => cases asked
  | asks answered _ ih =>
    cases asked with
    | here => exact ⟨_, answered⟩
    | later answeredToo rest =>
      cases unique _ _ _ answered answeredToo
      exact ih rest

theorem Shows.unique {valueToo : α} (shown : script.Shows shows value) (shownToo : script.Shows other valueToo)
    (unique : ∀ spec first second, shows spec first → other spec second → first = second) : value = valueToo := by
  induction shown with
  | ends =>
    cases shownToo
    rfl
  | asks answered _ ih =>
    cases shownToo with
    | asks answeredToo rest =>
      cases unique _ _ _ answered answeredToo
      exact ih rest

end Script

/-- If every question is sure to be answered as it was, the walk of the script yields the same value. -/
theorem Rules.Yields.script {rules : Rules} {compile : TypeSpec → Walk Schema} {script : Script α} {value : α}
    (shown : script.Shows (fun spec schema => rules.Yields (compile spec) schema) value) :
    rules.Yields (script.run compile) value := by
  induction shown with
  | ends => exact Rules.Yields.pure _
  | asks yields _ ih => exact Rules.Yields.bind yields ih

namespace Walk

/-- Two runs with one outcome. Of the value and of where the runs end something is known. -/
inductive Tallies (post : α → Progress → Progress → Prop) :
    EStateM.Result CompileError Progress α → EStateM.Result CompileError Progress α → Prop where
  | ok {value : α} {first second : Progress} (known : post value first second) :
      Tallies post (.ok value first) (.ok value second)
  | error {error : CompileError} {first second : Progress} : Tallies post (.error error first) (.error error second)

namespace Tallies

variable {post final : α → Progress → Progress → Prop}

theorem imp {first second : EStateM.Result CompileError Progress α} (tallies : Tallies post first second)
    (implies : ∀ value one other, post value one other → final value one other) : Tallies final first second := by
  cases tallies with
  | ok known => exact .ok (implies _ _ _ known)
  | error => exact .error

theorem bind {final : β → Progress → Progress → Prop} {walk twin : Walk α} {next nextToo : α → Walk β}
    {first second : Progress} (tallies : Tallies post (walk.run first) (twin.run second))
    (rest : ∀ value one other, post value one other → Tallies final ((next value).run one) ((nextToo value).run other)) :
    Tallies final ((walk >>= next).run first) ((twin >>= nextToo).run second) := by
  rw [EStateM.run_bind, EStateM.run_bind]
  generalize walk.run first = here at tallies
  generalize twin.run second = there at tallies
  cases tallies with
  | ok known => exact rest _ _ _ known
  | error => exact .error

end Tallies

end Walk

/-- What is kept of two progresses side by side, and how the first of them may grow. -/
structure Tandem where
  invariant : Progress → Progress → Prop
  growth : Progress → Progress → Prop
  refl : ∀ progress, growth progress progress
  trans : ∀ {first second third}, growth first second → growth second third → growth first third

namespace Tandem

/-- The two walks keep the invariant with one outcome, and the assertion about their value. -/
def Holds (tandem : Tandem) (post : α → Progress → Prop) (walk twin : Walk α) : Prop :=
  ∀ first second, tandem.invariant first second → Walk.Tallies
    (fun value one other => tandem.invariant one other ∧ tandem.growth first one ∧ post value one)
    (walk.run first) (twin.run second)

namespace Holds

variable {tandem : Tandem} {walk twin : Walk α}

protected theorem pure {post : α → Progress → Prop} {value : α} (known : ∀ progress, post value progress) :
    tandem.Holds post (pure value) (pure value) :=
  fun _ _ kept => .ok ⟨kept, tandem.refl _, known _⟩

protected theorem throw {post : α → Progress → Prop} (error : CompileError) :
    tandem.Holds post (throw error) (throw error) :=
  fun _ _ _ => .error

theorem ofResult {post : α → Progress → Prop} (outcome : Except CompileError α)
    (known : ∀ value, outcome = .ok value → ∀ progress, post value progress) :
    tandem.Holds post (Walk.ofResult outcome) (Walk.ofResult outcome) := by
  cases outcome with
  | ok value => exact Holds.pure (known value rfl)
  | error error => exact Holds.throw error

theorem ofAccess {post : α → Progress → Prop} (access : Except Fault α)
    (known : ∀ value, access = .ok value → ∀ progress, post value progress) :
    tandem.Holds post (Walk.ofAccess access) (Walk.ofAccess access) := by
  rw [Walk.ofAccess_eq]
  refine ofResult _ fun value same => known value ?_
  cases access with
  | ok => cases same; rfl
  | error => cases same

protected theorem bind {post : α → Progress → Prop} {final : β → Progress → Prop} {next nextToo : α → Walk β}
    (first : tandem.Holds post walk twin)
    (rest : ∀ value before, post value before → tandem.Holds (fun result after => tandem.growth before after →
      final result after) (next value) (nextToo value)) :
    tandem.Holds final (walk >>= next) (twin >>= nextToo) := by
  intro one other kept
  refine (first one other kept).bind fun value here there known => ?_
  obtain ⟨inner, grown, shown⟩ := known
  refine (rest value here shown here there inner).imp fun result _ _ known => ?_
  obtain ⟨later, further, final⟩ := known
  exact ⟨later, tandem.trans grown further, final further⟩

/-- A body that is asked for side by side is shown as its references are. -/
theorem script {compile other : TypeSpec → Walk Schema} {shows : TypeSpec → Schema → Progress → Prop}
    (stable : ∀ spec schema before after, tandem.growth before after → shows spec schema before → shows spec schema after)
    {script : Script α} (valid : ∀ spec, script.Asks (fun spec schema => ∃ progress, shows spec schema progress) spec →
      tandem.Holds (shows spec) (compile spec) (other spec)) :
    tandem.Holds (fun value after => script.Shows (fun spec schema => shows spec schema after) value)
      (script.run compile) (script.run other) := by
  induction script with
  | ends outcome =>
    refine ofResult outcome fun value same _ => ?_
    subst same
    exact .ends
  | asks spec next ih =>
    refine (valid spec .here).bind fun schema before shown => ?_
    intro first second kept
    have rest := ih schema (fun asked whence => valid asked (.later ⟨before, shown⟩ whence)) first second kept
    refine rest.imp fun value one _ known => ⟨known.1, known.2.1, fun grown => ?_⟩
    exact .asks (stable spec schema before one grown shown) known.2.2

/-- A reference may be remembered by the first walk while the second one compiles it anew. -/
theorem memoized {spec : TypeSpec} {walk twin : Walk Schema} {shows : Schema → Progress → Prop}
    (recalled : ∀ first second schema, tandem.invariant first second →
      first.known.lookup spec.optional = some schema →
      ∃ after, twin.run second = .ok schema after ∧ tandem.invariant first after ∧ shows schema first)
    (remember : ∀ first second schema, tandem.invariant first second → shows schema first →
      let after := { first with known := (spec.optional, schema) :: first.known }
      tandem.invariant after second ∧ tandem.growth first after ∧ shows schema after)
    (anew : tandem.Holds shows walk twin) : tandem.Holds shows (Walk.memoized spec walk) twin := by
  intro first second kept
  cases found : first.known.lookup spec.optional with
  | some schema =>
    obtain ⟨after, ran, inner, shown⟩ := recalled first second schema kept found
    simp only [Walk.memoized, EStateM.run_bind, EStateM.run_get, found]
    rw [ran]
    exact .ok ⟨inner, tandem.refl _, shown⟩
  | none =>
    simp only [Walk.memoized, EStateM.run_bind, EStateM.run_get, found]
    have tallies := anew first second kept
    generalize walk.run first = here at tallies
    generalize twin.run second = there at tallies
    cases tallies with
    | error => exact .error
    | ok known =>
      obtain ⟨inner, grown, shown⟩ := known
      obtain ⟨later, further, final⟩ := remember _ _ _ inner shown
      exact .ok ⟨later, tandem.trans grown further, final⟩

end Holds

end Tandem

theorem compileBodyWith_eq (memory : Memory) (setting : Setting) (chain : List Name) (kind : Kind) (entry : Entry) :
    compileBodyWith memory setting chain kind entry =
      (Scripted.body setting kind entry).script.run (compileSpecWith memory setting chain) :=
  ((Scripted.body setting kind entry).runs _).symm

/-- How a walk that remembers and one that compiles everything anew go side by side: what is kept of them while a chain
is written out, which references are met there, and what is known of the schema of a reference. Each law is about a
single step. How a type occurs among its own references is left open, and only there do hoisting and writing out differ. -/
structure TandemDiscipline (setting : Setting) where
  tandem : List Name → Tandem
  admits : List Name → TypeSpec → Prop
  shows : List Name → TypeSpec → Schema → Progress → Prop
  stable (chain : List Name) (spec : TypeSpec) (schema : Schema) (before after : Progress) :
    (tandem chain).growth before after → shows chain spec schema before → shows chain spec schema after
  recalled {chain : List Name} {spec : TypeSpec} {schema : Schema} {first second : Progress} : admits chain spec →
    (tandem chain).invariant first second → first.known.lookup spec.optional = some schema →
    ∃ after, (compileSpecWith .absent setting chain spec).run second = .ok schema after ∧
      (tandem chain).invariant first after ∧ shows chain spec schema first
  remember {chain : List Name} {spec : TypeSpec} {schema : Schema} {first second : Progress} :
    (tandem chain).invariant first second → shows chain spec schema first →
    (tandem chain).invariant { first with known := (spec.optional, schema) :: first.known } second ∧
      (tandem chain).growth first { first with known := (spec.optional, schema) :: first.known }
  element {chain : List Name} {element : TypeSpec} {required nullable : Bool} :
    admits chain (.array element required nullable) → admits chain element
  array {chain : List Name} {progress : Progress} {element : TypeSpec} {required nullable : Bool} {items schema : Schema} :
    shows chain element items progress → setting.widened nullable (.array items) = .ok schema →
    shows chain (.array element required nullable) schema progress
  primitive {chain : List Name} {progress : Progress} {name : String} {required nullable : Bool} {fragment : Value}
    {schema : Schema} : classify setting.catalog setting.registry name = .ok (.primitive fragment) →
    setting.widened nullable (.ofValue fragment) = .ok schema →
    shows chain (.named name required nullable) schema progress
  scalar {chain : List Name} {progress : Progress} {name : String} {required nullable : Bool} {entry : Entry}
    {fragment : Value} {schema : Schema} : classify setting.catalog setting.registry name = .ok (.entry .scalar entry) →
    entry.fragment = .ok fragment → setting.widened nullable (.ofValue fragment) = .ok schema →
    shows chain (.named name required nullable) schema progress
  asked {chain : List Name} {name : String} {required nullable : Bool} {kind : Kind} {entry : Entry} {spec : TypeSpec} :
    admits chain (.named name required nullable) → kind.isNamed = true →
    classify setting.catalog setting.registry name = .ok (.entry kind entry) →
    (Scripted.body setting kind entry).script.Asks
      (fun spec schema => ∃ progress, shows (chain ++ [entry.name]) spec schema progress) spec →
    admits (chain ++ [entry.name]) spec
  named {chain : List Name} {name : String} {required nullable : Bool} {kind : Kind} {entry : Entry} :
    kind.isNamed = true → classify setting.catalog setting.registry name = .ok (.entry kind entry) →
    (entry.name ∉ chain → (tandem (chain ++ [entry.name])).Holds
      (fun body after => (Scripted.body setting kind entry).script.Shows
        (fun spec schema => shows (chain ++ [entry.name]) spec schema after) body)
      (compileBodyWith Walk.memoized setting (chain ++ [entry.name]) kind entry)
      (compileBodyWith .absent setting (chain ++ [entry.name]) kind entry)) →
    (tandem chain).Holds (shows chain (.named name required nullable))
      (compileNameWith Walk.memoized setting chain name required nullable)
      (compileNameWith .absent setting chain name required nullable)

namespace TandemDiscipline

variable {setting : Setting} (discipline : TandemDiscipline setting) {chain : List Name} {spec : TypeSpec}

private theorem remembered (admitted : discipline.admits chain spec)
    (anew : (discipline.tandem chain).Holds (discipline.shows chain spec)
      (setting.anew Walk.memoized chain spec) (setting.anew .absent chain spec)) :
    (discipline.tandem chain).Holds (discipline.shows chain spec)
      (compileSpecWith Walk.memoized setting chain spec) (compileSpecWith .absent setting chain spec) := by
  have plain : compileSpecWith .absent setting chain spec = setting.anew .absent chain spec := compileSpecWith_eq ..
  rw [compileSpecWith_eq Walk.memoized, plain]
  refine Tandem.Holds.memoized (fun first second schema kept found => ?_) (fun first second schema kept shown => ?_) anew
  · exact plain ▸ discipline.recalled admitted kept found
  · obtain ⟨inner, grown⟩ := discipline.remember kept shown
    exact ⟨inner, grown, discipline.stable chain spec schema _ _ grown shown⟩

/-- A reference that is met is compiled side by side. -/
theorem holds_compileSpecWith (chain : List Name) (spec : TypeSpec) (admitted : discipline.admits chain spec) :
    (discipline.tandem chain).Holds (discipline.shows chain spec)
      (compileSpecWith Walk.memoized setting chain spec) (compileSpecWith .absent setting chain spec) := by
  induction chain using setting.chain_induction generalizing spec with
  | step chain ih =>
    induction spec with
    | array element required nullable inner =>
      refine discipline.remembered admitted ((inner (discipline.element admitted)).bind fun items before shown => ?_)
      refine Tandem.Holds.ofAccess _ fun schema widened after grown => ?_
      exact discipline.array (discipline.stable chain element items before after grown shown) widened
    | named name required nullable =>
      refine discipline.remembered admitted ?_
      rw [Setting.anew, Setting.anew]
      cases denotation setting.catalog setting.registry name with
      | nothing classified =>
        rw [compileNameWith_eq, compileNameWith_eq, classified]
        exact Tandem.Holds.throw _
      | input classified =>
        rw [compileNameWith_eq, compileNameWith_eq, classified]
        exact Tandem.Holds.throw _
      | primitive classified =>
        rw [compileNameWith_eq, compileNameWith_eq, classified]
        exact Tandem.Holds.ofAccess _ fun schema widened _ => discipline.primitive classified widened
      | @scalar entry classified =>
        rw [compileNameWith_eq, compileNameWith_eq, classified]
        refine (Tandem.Holds.ofAccess entry.fragment fun _ same _ => same).bind fun fragment _ read => ?_
        exact Tandem.Holds.ofAccess _ fun schema widened _ _ => discipline.scalar classified read widened
      | @type kind entry named classified =>
        refine discipline.named named classified fun fresh => ?_
        rw [compileBodyWith_eq, compileBodyWith_eq]
        refine Tandem.Holds.script (discipline.stable _) fun next asked => ?_
        exact ih entry (mem_of_classify_eq classified) fresh next (discipline.asked admitted named classified asked)

end TandemDiscipline

end Schemata
