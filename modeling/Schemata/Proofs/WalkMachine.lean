import Schemata.Proofs.SettledReferences
import Schemata.Proofs.WalkScripts
import Mathlib.Logic.Relation

/-! The walk as a machine that takes one small step after another. What is left to do after a reference is
kept in frames, and the types that are being written out are those whose frames are there. The machine is no
other way of compiling: from any reference it comes to where the walk comes, with the same progress. -/

namespace Schemata

inductive Frame where
  | remember (spec : TypeSpec)
  | array (nullable : Bool)
  | body (entry : Entry) (nullable : Bool)
  | question (next : Schema → Script Schema)
  | call (next : Schema → Script Compiled)

def Frame.chain : List Frame → List Name
  | [] => []
  | .body entry _ :: frames => chain frames ++ [entry.name]
  | .remember _ :: frames | .array _ :: frames | .question _ :: frames | .call _ :: frames => chain frames

inductive Stage where
  | reference (spec : TypeSpec)
  | occurrence (kind : Kind) (entry : Entry) (nullable : Bool)
  | body (script : Script Schema)
  | schema (schema : Schema)
  | call (script : Script Compiled)
  | finished (outcome : Except CompileError Compiled)

/-- A compilation between two steps, with the types whose bodies it has begun, in order. -/
structure Machine where
  stage : Stage
  frames : List Frame
  progress : Progress
  entered : List Name

namespace Machine

def chain (machine : Machine) : List Name := Frame.chain machine.frames

def settle (machine : Machine) : Except CompileError Schema → Machine
  | .ok schema => { machine with stage := .schema schema }
  | .error error => { machine with stage := .finished (.error error), frames := [] }

def push (machine : Machine) (frame : Frame) (stage : Stage) : Machine :=
  { machine with stage, frames := frame :: machine.frames }

def note (machine : Machine) (event : Event) : Machine :=
  { machine with progress.events := event :: machine.progress.events }

def remember (machine : Machine) (spec : TypeSpec) (schema : Schema) : Machine :=
  { machine with progress.known := (spec.optional, schema) :: machine.progress.known }

def hoist (machine : Machine) (name : String) (schema : Schema) : Machine :=
  { machine with progress.table := Record.set machine.progress.table name schema }

end Machine

namespace Setting

variable (setting : Setting) (machine : Machine)

def admitted (nullable : Bool) (schema : Schema) : Except CompileError Schema :=
  (setting.widened nullable schema).mapError .unusable

def referred (nullable : Bool) (name : String) : Except CompileError Schema :=
  setting.admitted nullable (.reference setting.dialect.base name)

def enter (kind : Kind) (entry : Entry) (nullable : Bool) : Machine :=
  { machine.push (.body entry nullable) (.body (Scripted.body setting kind entry).script) with
    entered := machine.entered ++ [entry.name] }

def meetType (kind : Kind) (entry : Entry) (nullable : Bool) : Machine :=
  if setting.hoisting then
    match entry.name with
    | .text name =>
      if Record.has machine.progress.table name then
        (machine.note (.reused name)).settle (setting.referred nullable name)
      else if entry.name ∈ machine.chain then
        (machine.note (.recursive name)).settle (setting.referred nullable name)
      else setting.enter machine kind entry nullable
    | .other .. =>
      if entry.name ∈ machine.chain then machine.settle (.error (.unusable .unsuitable))
      else setting.enter machine kind entry nullable
  else if entry.name ∈ machine.chain then
    machine.settle (.error (.unterminatedRecursion (machine.chain ++ [entry.name])))
  else setting.enter machine kind entry nullable

def meetName (name : String) (required nullable : Bool) : Machine :=
  match classify setting.catalog setting.registry name with
  | .error error => machine.settle (.error error)
  | .ok (.primitive fragment) => machine.settle (setting.admitted nullable (.ofValue fragment))
  | .ok (.entry .input _) =>
    machine.settle (.error (.invalidReference
      (.written (.text (TypeSpec.named name required nullable).render)) (.nestedInput name)))
  | .ok (.entry .scalar entry) =>
    machine.settle ((entry.fragment.mapError .unusable).bind fun fragment =>
      setting.admitted nullable (.ofValue fragment))
  | .ok (.entry kind entry) => { machine with stage := .occurrence kind entry nullable }

def meetSpec : TypeSpec → Machine
  | .named name required nullable => setting.meetName machine name required nullable
  | .array element _ nullable => machine.push (.array nullable) (.reference element)

def meetReference (spec : TypeSpec) : Machine :=
  match machine.progress.known.lookup spec.optional with
  | some schema => machine.settle (.ok schema)
  | none => setting.meetSpec (machine.push (.remember spec) (.reference spec)) spec

def receive (schema : Schema) : Frame → Machine
  | .remember spec => (machine.remember spec schema).settle (.ok schema)
  | .array nullable => machine.settle (setting.admitted nullable (.array schema))
  | .body entry nullable =>
    if setting.hoisting then
      match entry.name with
      | .text name => ((machine.hoist name schema).note (.hoisted name)).settle (setting.referred nullable name)
      | .other .. => machine.settle (.error (.unusable .unsuitable))
    else machine.settle (setting.admitted nullable schema)
  | .question next => { machine with stage := .body (next schema) }
  | .call next => { machine with stage := .call (next schema) }

def next? (machine : Machine) : Option Machine :=
  match machine.stage with
  | .reference spec => some (setting.meetReference machine spec)
  | .occurrence kind entry nullable => some (setting.meetType machine kind entry nullable)
  | .body (.asks spec next) => some (machine.push (.question next) (.reference spec))
  | .body (.ends outcome) => some (machine.settle outcome)
  | .schema schema =>
    match machine.frames with
    | [] => none
    | frame :: frames => some (setting.receive { machine with frames } schema frame)
  | .call (.asks spec next) => some (machine.push (.call next) (.reference spec))
  | .call (.ends outcome) => some { machine with stage := .finished outcome }
  | .finished _ => none

def Steps (before after : Machine) : Prop := setting.next? before = some after

def StepsTo : Machine → Machine → Prop := Relation.ReflTransGen setting.Steps

end Setting

def Machine.landing (stage : α → Stage) (frames : List Frame) (entered : List Name) :
    EStateM.Result CompileError Progress α → Machine
  | .ok value progress => ⟨stage value, frames, progress, entered⟩
  | .error error progress => ⟨.finished (.error error), [], progress, entered⟩

/-- The machine comes to some result, and to some frames if that is no error. -/
def Setting.Lands (setting : Setting) (stage : α → Stage) (machine : Machine) (frames : List Frame)
    (result : EStateM.Result CompileError Progress α) : Prop :=
  ∃ entered, setting.StepsTo machine (.landing stage frames entered result)

abbrev Setting.Does (setting : Setting) (machine : Machine) (frames : List Frame)
    (result : EStateM.Result CompileError Progress Schema) : Prop :=
  setting.Lands .schema machine frames result

abbrev Setting.Finishes (setting : Setting) (machine : Machine)
    (result : EStateM.Result CompileError Progress Compiled) : Prop :=
  setting.Lands (fun compiled => .finished (.ok compiled)) machine [] result

namespace Setting.Lands

variable {setting : Setting} {stage : α → Stage} {machine next : Machine} {frames middle : List Frame}
  {result : EStateM.Result CompileError Progress α}

theorem step (stepped : setting.next? machine = some next) (lands : setting.Lands stage next frames result) :
    setting.Lands stage machine frames result := by
  obtain ⟨entered, path⟩ := lands
  exact ⟨entered, .head stepped path⟩

theorem bind {walk : Walk Schema} {rest : Schema → Walk α} {progress : Progress}
    (first : setting.Does machine middle (walk.run progress))
    (later : ∀ schema after entered,
      setting.Lands stage ⟨.schema schema, middle, after, entered⟩ frames ((rest schema).run after)) :
    setting.Lands stage machine frames ((walk >>= rest).run progress) := by
  obtain ⟨entered, path⟩ := first
  rw [EStateM.run_bind]
  cases ran : walk.run progress with
  | ok schema after =>
    rw [ran] at path
    obtain ⟨last, more⟩ := later schema after entered
    exact ⟨last, path.trans more⟩
  | error error after =>
    rw [ran] at path
    exact ⟨entered, path⟩

end Setting.Lands

namespace Setting.Does

variable {setting : Setting} {machine : Machine} {frames : List Frame}

theorem settle (machine : Machine) (outcome : Except CompileError Schema) :
    setting.Does (machine.settle outcome) machine.frames ((Walk.ofResult outcome).run machine.progress) := by
  cases outcome <;> exact ⟨machine.entered, .refl⟩

theorem memoized {spec : TypeSpec} {walk : Walk Schema} {progress : Progress} {entered : List Name}
    (missing : setting.Does (setting.meetSpec ⟨.reference spec, .remember spec :: frames, progress, entered⟩ spec)
      (.remember spec :: frames) (walk.run progress)) :
    setting.Does ⟨.reference spec, frames, progress, entered⟩ frames ((Walk.memoized spec walk).run progress) := by
  apply Lands.step (show setting.next? _ = some (setting.meetReference _ spec) from rfl)
  cases found : progress.known.lookup spec.optional with
  | some schema =>
    simp only [Setting.meetReference, Walk.memoized, EStateM.run_bind, EStateM.run_get, found]
    exact settle _ (.ok schema)
  | none =>
    simp only [Setting.meetReference, Walk.memoized, EStateM.run_bind, EStateM.run_get, found]
    apply Lands.bind missing
    intro schema after entered
    exact Lands.step rfl (settle (Machine.remember ⟨_, frames, after, entered⟩ spec schema) (.ok schema))

theorem admitted (machine : Machine) (nullable : Bool) (schema : Schema) :
    setting.Does (machine.settle (setting.admitted nullable schema)) machine.frames
      ((Walk.ofAccess (setting.widened nullable schema)).run machine.progress) := by
  rw [Walk.ofAccess_eq]
  exact settle machine (setting.admitted nullable schema)

/-- A body is begun at an occurrence just where the walk compiles it. -/
theorem occurrence {kind : Kind} {entry : Entry} {nullable : Bool} {walk : Walk Schema}
    (body : entry.name ∉ machine.chain →
      setting.Does (setting.enter machine kind entry nullable) (.body entry nullable :: machine.frames)
        (walk.run machine.progress)) :
    setting.Does (setting.meetType machine kind entry nullable) machine.frames
      ((setting.occurrence machine.chain entry nullable fun _ => walk).run machine.progress) := by
  cases hoists : setting.hoisting with
  | false =>
    rw [Setting.occurrence_inline hoists]
    simp only [Setting.meetType, hoists, Bool.false_eq_true, if_false]
    split
    next inside => exact settle machine (.error (.unterminatedRecursion (machine.chain ++ [entry.name])))
    next fresh =>
      apply Lands.bind (body fresh)
      intro written after entered
      refine Lands.step rfl ?_
      simp only [Setting.receive, hoists, Bool.false_eq_true, if_false]
      exact admitted ⟨_, machine.frames, after, entered⟩ nullable written
  | true =>
    have spelled : (∃ name, entry.name = .text name) ∨ ∃ key shown, entry.name = .other key shown := by
      cases entry.name <;> simp
    rcases spelled with ⟨name, named⟩ | ⟨key, shown, named⟩
    · rw [Setting.occurrence_hoisting hoists named, EStateM.run_bind, Setting.place_run]
      simp only [Setting.meetType, hoists, named, if_true]
      split
      next known => exact admitted (machine.note (.reused name)) nullable _
      next unknown =>
        split
        next inside => exact admitted (machine.note (.recursive name)) nullable _
        next fresh =>
          rw [← EStateM.run_bind, bind_assoc]
          apply Lands.bind (body (named ▸ fresh))
          intro written after entered
          refine Lands.step rfl ?_
          simp only [Setting.receive, hoists, named, if_true]
          let written : Machine := (Machine.mk (.schema written) machine.frames after entered).hoist name written
          exact admitted (written.note (.hoisted name)) nullable _
    · rw [Setting.occurrence_unsuitable hoists named]
      simp only [Setting.meetType, hoists, named, if_true]
      split
      next inside => exact settle machine (.error (.unusable .unsuitable))
      next fresh =>
        apply Lands.bind (body (named ▸ fresh))
        intro written after entered
        refine Lands.step rfl ?_
        simp only [Setting.receive, hoists, named, if_true]
        exact settle ⟨_, machine.frames, after, entered⟩ (.error (.unusable .unsuitable))

theorem script {compile : TypeSpec → Walk Schema} {chain : List Name}
    (compiles : ∀ frames, Frame.chain frames = chain → ∀ spec progress entered,
      setting.Does ⟨.reference spec, frames, progress, entered⟩ frames ((compile spec).run progress))
    (framed : Frame.chain frames = chain) (script : Script Schema) (progress : Progress) (entered : List Name) :
    setting.Does ⟨.body script, frames, progress, entered⟩ frames ((script.run compile).run progress) := by
  induction script generalizing progress entered with
  | ends outcome => exact Lands.step rfl (settle ⟨_, frames, progress, entered⟩ outcome)
  | asks spec next ih =>
    apply Lands.step rfl
    apply Lands.bind (compiles (.question next :: frames) framed spec progress entered)
    intro schema after entered
    exact Lands.step rfl (ih schema after entered)

theorem body {chain : List Name}
    (compiles : ∀ frames, Frame.chain frames = chain → ∀ spec progress entered,
      setting.Does ⟨.reference spec, frames, progress, entered⟩ frames ((compileSpec setting chain spec).run progress))
    (kind : Kind) (entry : Entry) (framed : Frame.chain frames = chain) (progress : Progress) (entered : List Name) :
    setting.Does ⟨.body (Scripted.body setting kind entry).script, frames, progress, entered⟩ frames
      ((compileBody setting chain kind entry).run progress) := by
  rw [compileBody, ← (Scripted.body setting kind entry).runs]
  exact script compiles framed _ progress entered

private theorem name (machine : Machine) {name : String} {required nullable : Bool}
    (bodies : ∀ kind entry, entry ∈ setting.catalog.toList → entry.name ∉ machine.chain →
      setting.Does (setting.enter machine kind entry nullable) (.body entry nullable :: machine.frames)
        ((compileBody setting (machine.chain ++ [entry.name]) kind entry).run machine.progress)) :
    setting.Does (setting.meetName machine name required nullable) machine.frames
      ((compileName setting machine.chain name required nullable).run machine.progress) := by
  unfold Setting.meetName
  cases classified : classify setting.catalog setting.registry name with
  | error error =>
    rw [compileName_error classified]
    exact settle machine (.error error)
  | ok found =>
    cases found with
    | primitive fragment =>
      rw [compileName_primitive classified]
      exact admitted machine nullable (.ofValue fragment)
    | entry kind entry =>
      cases kind with
      | input =>
        rw [compileName_input classified]
        exact settle machine (.error _)
      | scalar =>
        rw [compileName_scalar classified]
        dsimp only
        cases entry.fragment with
        | error fault => exact settle machine (.error (.unusable fault))
        | ok fragment => exact admitted machine nullable (.ofValue fragment)
      | product | sum | map | union =>
        rw [compileName_named rfl classified]
        refine Lands.step rfl (occurrence fun fresh => ?_)
        exact bodies _ entry (mem_of_classify_eq classified) fresh

/-- The machine compiles references as the walk does, with the chain that its frames make up. -/
theorem reference (chain : List Name) (spec : TypeSpec) (frames : List Frame) (framed : Frame.chain frames = chain)
    (progress : Progress) (entered : List Name) :
    setting.Does ⟨.reference spec, frames, progress, entered⟩ frames ((compileSpec setting chain spec).run progress) := by
  -- The names that are not yet on the chain decrease on the way into a type, the reference on that into an array.
  induction chain using setting.chain_induction generalizing spec frames progress entered with
  | step chain ih =>
    induction spec generalizing frames progress entered with
    | array element required nullable inner =>
      apply memoized
      apply Lands.bind (inner (.array nullable :: .remember _ :: frames) framed progress entered)
      intro items after entered
      rw [Setting.widen_eq]
      exact Lands.step rfl (admitted ⟨_, .remember _ :: frames, after, entered⟩ nullable (.array items))
    | named name required nullable =>
      apply memoized
      subst framed
      refine Does.name ⟨_, .remember _ :: frames, progress, entered⟩ fun kind entry held fresh => ?_
      exact Does.body (fun frames framed spec => ih entry held fresh spec frames framed) kind entry rfl progress _

end Setting.Does

def Script.single (spec : TypeSpec) : Script Compiled := .asks spec fun schema => .ends (.ok (.single schema))

def Script.ofInput (entry : Entry) : Script Compiled :=
  (Scripted.parameters entry).script.bind fun records => .ends (.ok (.parameters records))

namespace Setting

variable (setting : Setting)

def specScript (spec : TypeSpec) : Script Compiled :=
  match spec.name? with
  | none => .single spec
  | some name =>
    match classify setting.catalog setting.registry name with
    | .error error => .ends (.error error)
    | .ok (.entry .input entry) =>
      if spec.nullable then .ends (.error (.invalidReference (.written (.text spec.render)) .nullableInput))
      else .ofInput entry
    | .ok _ => .single spec

/-- What a compilation does first. A type that is given itself is met as in a reference. -/
def begin : Referent → Stage × List Frame
  | .entry (.checked (.input name parameters)) => (.call (.ofInput (.checked (.input name parameters))), [])
  | .entry (.checked (.scalar _ fragment)) => (.call (.ends (.ok (.single (.ofRecord fragment)))), [])
  | .entry (.checked definition) =>
    (.occurrence definition.kind (.checked definition) false, [.call fun schema => .ends (.ok (.single schema))])
  | .entry (.handwritten shape) =>
    (.call (.ends (.error (.invalidReference (.entry (.handwritten shape)) .notReference))), [])
  | .written value =>
    match TypeSpec.read false value with
    | .error misreading => (.call (.ends (.error (.ofMisreading misreading))), [])
    | .ok spec => (.call (setting.specScript spec), [])

def opening (given : Referent) (progress : Progress) : Machine :=
  ⟨(setting.begin given).1, (setting.begin given).2, progress, []⟩

variable {setting}

theorem finishes_script (script : Script Compiled) (progress : Progress) (entered : List Name) :
    setting.Finishes ⟨.call script, [], progress, entered⟩ ((script.run (compileSpec setting [])).run progress) := by
  induction script generalizing progress entered with
  | ends outcome => cases outcome <;> exact Lands.step rfl ⟨entered, .refl⟩
  | asks spec next ih =>
    apply Lands.step rfl
    apply Lands.bind (Does.reference [] spec [.call next] rfl progress entered)
    intro schema after entered
    exact Lands.step rfl (ih schema after entered)

end Setting

theorem Script.run_ofInput {setting : Setting} (entry : Entry) :
    (Script.ofInput entry).run (compileSpec setting []) = Compiled.ofInput setting entry := by
  rw [ofInput, Script.run_bind, (Scripted.parameters entry).runs]
  rfl

theorem Setting.run_specScript (setting : Setting) (spec : TypeSpec) :
    (setting.specScript spec).run (compileSpec setting []) = Compiled.ofSpec setting spec := by
  unfold specScript
  cases spec with
  | array => rfl
  | named name required nullable =>
    dsimp only [TypeSpec.name?]
    rcases classify_cases setting.catalog setting.registry name with
      ⟨error, classified⟩ | ⟨entry, classified⟩ | ⟨found, classified, noInput⟩
    · rw [Compiled.ofSpec_error classified, classified]
      rfl
    · rw [Compiled.ofSpec_input classified, classified]
      cases nullable with
      | true => rfl
      | false => exact Script.run_ofInput entry
    · rw [Compiled.ofSpec_named classified noInput, classified]
      split
      next impossible => cases impossible
      next same => cases same; exact absurd rfl (noInput _)
      next => rfl

namespace Setting

variable {setting : Setting}

/-- From its beginning the machine comes to what the compilation answers. -/
theorem finishes_opening (given : Referent) (progress : Progress) :
    setting.Finishes (setting.opening given progress) ((Compiled.ofReferent setting given).run progress) := by
  have called (script : Script Compiled) : setting.Finishes ⟨.call script, [], progress, []⟩
      ((script.run (compileSpec setting [])).run progress) := finishes_script script progress []
  cases given with
  | written value =>
    rw [Compiled.ofReferent]
    simp only [opening, begin]
    cases TypeSpec.read false value with
    | error misreading => exact called (.ends (.error (.ofMisreading misreading)))
    | ok spec =>
      have finished := called (setting.specScript spec)
      rwa [run_specScript] at finished
  | entry entry =>
    cases entry with
    | handwritten shape =>
      exact called (.ends (.error (.invalidReference (.entry (.handwritten shape)) .notReference)))
    | checked definition =>
      cases definition with
      | scalar name fragment => exact called (.ends (.ok (.single (.ofRecord fragment))))
      | input name parameters =>
        have finished := called (.ofInput (.checked (.input name parameters)))
        rwa [Script.run_ofInput] at finished
      | product | sum | map | union =>
        rw [Compiled.ofReferent, Compiled.ofDefinition_named rfl]
        refine Lands.bind (.step rfl (Does.occurrence fun fresh => ?_)) fun schema after entered => ?_
        · exact Does.body (fun frames framed spec => Does.reference _ spec frames framed) _ _ rfl progress _
        · exact .step rfl (finishes_script (.ends (.ok (.single schema))) after entered)

end Setting

end Schemata
