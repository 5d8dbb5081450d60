import Schemata.Proofs.SessionTables
import Schemata.Proofs.WalkMachine
import Mathlib.Data.List.Perm.Subperm

/-! The recursion of a compilation is bounded. A step either leaves the chain and the table alone, or begins a
type that is not being written out, or is done with the innermost type, or ends in an error. So the types on
the chain are distinct; and when types are hoisted, those that were begun are those on the chain and those
that came into the table. -/

namespace Schemata

def Stage.met? : Stage → Option Entry
  | .occurrence _ entry _ => some entry
  | _ => none

structure Machine.Alike (before after : Machine) : Prop where
  chain : after.chain = before.chain
  table : after.progress.table = before.progress.table
  entered : after.entered = before.entered

/-- All that a step can do to them. When types are hoisted, a type is only begun while the table lacks it, and
the table only gets the innermost type of the chain. -/
inductive Setting.Shifts (setting : Setting) (before after : Machine) : Prop where
  | stays (alike : before.Alike after) (met : ∀ entry ∈ after.stage.met?, entry ∈ setting.catalog.toList)
  | fails {error : CompileError} (ended : after.stage = .finished (.error error)) (frames : after.frames = [])
      (entered : after.entered = before.entered)
  | enters {entry : Entry} (met : before.stage.met? = some entry) (fresh : entry.name ∉ before.chain)
      (absent : setting.hoisting = true → ∀ name, entry.name = .text name →
        name ∉ Record.names before.progress.table)
      (chain : after.chain = before.chain ++ [entry.name]) (table : after.progress.table = before.progress.table)
      (entered : after.entered = before.entered ++ [entry.name]) (unmet : after.stage.met? = none)
  | leaves {entry : Entry} (chain : before.chain = after.chain ++ [entry.name])
      (stored : setting.hoisting = true → ∃ name body, entry.name = .text name ∧
        after.progress.table = Record.set before.progress.table name body)
      (entered : after.entered = before.entered) (unmet : after.stage.met? = none)

namespace Machine

variable {setting : Setting} {before machine : Machine}

protected theorem Alike.refl (machine : Machine) : machine.Alike machine := ⟨rfl, rfl, rfl⟩

theorem alike_note (machine : Machine) (event : Event) : machine.Alike (machine.note event) := ⟨rfl, rfl, rfl⟩

theorem alike_remembering (machine : Machine) (spec : TypeSpec) (stage : Stage) :
    machine.Alike (machine.push (.remember spec) stage) :=
  ⟨rfl, rfl, rfl⟩

namespace Alike

theorem stays (alike : before.Alike machine) (unmet : machine.stage.met? = none) : setting.Shifts before machine :=
  .stays alike fun _ met => nomatch unmet.symm.trans met

theorem settle (alike : before.Alike machine) (outcome : Except CompileError Schema) :
    setting.Shifts before (machine.settle outcome) := by
  obtain ⟨chain, table, entered⟩ := alike
  cases outcome with
  | ok => exact stays ⟨chain, table, entered⟩ rfl
  | error => exact .fails rfl rfl entered

theorem meetName (alike : before.Alike machine) (name : String) (required nullable : Bool) :
    setting.Shifts before (setting.meetName machine name required nullable) := by
  unfold Setting.meetName
  split
  next => exact alike.settle _
  next => exact alike.settle _
  next => exact alike.settle _
  next => exact alike.settle _
  next kind entry _ _ classified =>
    obtain ⟨chain, table, entered⟩ := alike
    refine .stays ⟨chain, table, entered⟩ fun met same => ?_
    cases same
    exact mem_of_classify_eq classified

end Alike

end Machine

namespace Setting

variable {setting : Setting} {before after machine : Machine}

private theorem shifts_meetReference (machine : Machine) (spec : TypeSpec) :
    setting.Shifts machine (setting.meetReference machine spec) := by
  unfold meetReference
  split
  next => exact (Machine.Alike.refl machine).settle _
  next =>
    cases spec with
    | array => exact Machine.Alike.stays ⟨rfl, rfl, rfl⟩ rfl
    | named name required nullable => exact (machine.alike_remembering _ _).meetName name required nullable

private theorem shifts_meetType {kind : Kind} {entry : Entry} {nullable : Bool}
    (met : machine.stage = .occurrence kind entry nullable) :
    setting.Shifts machine (setting.meetType machine kind entry nullable) := by
  have enters (fresh : entry.name ∉ machine.chain) (absent : setting.hoisting = true → ∀ name,
      entry.name = .text name → name ∉ Record.names machine.progress.table) :
      setting.Shifts machine (setting.enter machine kind entry nullable) :=
    .enters (by rw [met]; rfl) fresh absent rfl rfl rfl rfl
  unfold meetType
  split
  next hoists =>
    split
    next name named =>
      split
      next => exact (machine.alike_note _).settle _
      next unknown =>
        split
        next => exact (machine.alike_note _).settle _
        next fresh =>
          refine enters fresh fun _ other same => ?_
          cases named.symm.trans same
          exact fun known => unknown (Record.has_iff.mpr known)
    next named =>
      split
      next => exact (Machine.Alike.refl machine).settle _
      next fresh =>
        refine enters fresh fun _ name same => ?_
        cases named.symm.trans same
  next inline =>
    split
    next => exact (Machine.Alike.refl machine).settle _
    next fresh => exact enters fresh fun hoists => absurd hoists inline

private theorem shifts_receive (machine : Machine) (schema : Schema) (frame : Frame) :
    setting.Shifts { machine with frames := frame :: machine.frames } (setting.receive machine schema frame) := by
  cases frame with
  | remember | question | call => exact Machine.Alike.stays ⟨rfl, rfl, rfl⟩ rfl
  | array nullable =>
    apply Machine.Alike.settle
    exact ⟨rfl, rfl, rfl⟩
  | body entry nullable =>
    unfold receive
    dsimp only
    split
    next hoists =>
      split
      next name named =>
        cases setting.referred nullable name with
        | error => exact .fails rfl rfl rfl
        | ok => exact .leaves rfl (fun _ => ⟨name, schema, named, rfl⟩) rfl rfl
      next => exact .fails rfl rfl rfl
    next inline =>
      cases setting.admitted nullable schema with
      | error => exact .fails rfl rfl rfl
      | ok => exact .leaves rfl (fun hoists => absurd hoists inline) rfl rfl

theorem Steps.shifts (stepped : setting.Steps before after) : setting.Shifts before after := by
  obtain ⟨stage, frames, progress, entered⟩ := before
  cases stage with
  | reference spec =>
    obtain rfl := Option.some.inj stepped
    exact shifts_meetReference _ spec
  | occurrence kind entry nullable =>
    obtain rfl := Option.some.inj stepped
    exact shifts_meetType rfl
  | body script =>
    cases script with
    | ends outcome =>
      obtain rfl := Option.some.inj stepped
      exact (Machine.Alike.refl _).settle outcome
    | asks spec next =>
      obtain rfl := Option.some.inj stepped
      exact Machine.Alike.stays ⟨rfl, rfl, rfl⟩ rfl
  | schema schema =>
    cases frames with
    | nil => cases stepped
    | cons frame frames =>
      obtain rfl := Option.some.inj stepped
      exact shifts_receive ⟨_, frames, progress, entered⟩ schema frame
  | call script =>
    cases script <;> obtain rfl := Option.some.inj stepped <;> exact Machine.Alike.stays ⟨rfl, rfl, rfl⟩ rfl
  | finished outcome => cases stepped

theorem Steps.unfinished (stepped : setting.Steps before after) (outcome : Except CompileError Compiled) :
    before.stage ≠ .finished outcome := by
  obtain ⟨stage, frames, progress, entered⟩ := before
  rintro rfl
  cases stepped

end Setting

namespace Machine

variable {setting : Setting} {offered : List Name} {before after machine : Machine}

/-- The types being written out, and the one that is met next, are among some; none is written out twice. -/
structure Bounded (offered : List Name) (machine : Machine) : Prop where
  distinct : machine.chain.Nodup
  chained : machine.chain ⊆ offered
  entered : machine.entered ⊆ offered
  met : ∀ entry ∈ machine.stage.met?, entry.name ∈ offered

theorem Bounded.step (bounded : before.Bounded offered)
    (catalog : setting.catalog.toList.map Entry.name ⊆ offered) (stepped : setting.Steps before after) :
    after.Bounded offered := by
  obtain ⟨distinct, chained, entered, met⟩ := bounded
  cases stepped.shifts with
  | stays alike held =>
    refine ⟨alike.chain ▸ distinct, alike.chain ▸ chained, alike.entered ▸ entered, fun entry known => ?_⟩
    exact catalog (List.mem_map_of_mem (held entry known))
  | fails ended frames same =>
    have empty : after.chain = [] := by rw [Machine.chain, frames, Frame.chain]
    refine ⟨empty ▸ .nil, empty ▸ List.nil_subset _, same ▸ entered, fun entry known => ?_⟩
    rw [ended] at known
    cases known
  | @enters entry known fresh absent chain table grown unmet =>
    have one : [entry.name] ⊆ offered := List.cons_subset.mpr ⟨met entry known, List.nil_subset _⟩
    refine ⟨?_, ?_, ?_, fun entry known => nomatch unmet.symm.trans known⟩
    · rw [chain, ← List.concat_eq_append]
      exact distinct.concat fresh
    · rw [chain]
      exact List.append_subset.mpr ⟨chained, one⟩
    · rw [grown]
      exact List.append_subset.mpr ⟨entered, one⟩
  | leaves chain stored same unmet =>
    rw [chain] at distinct chained
    refine ⟨distinct.of_append_left, (List.append_subset.mp chained).1, same ▸ entered, ?_⟩
    exact fun entry known => nomatch unmet.symm.trans known

/-- The types that were begun are those being written out with those that came into the table, each once. -/
structure Accounted (start : Table) (machine : Machine) : Prop where
  once : machine.entered.Nodup
  new : ∀ name ∈ Record.names start, .text name ∉ machine.entered
  balance : (∃ error, machine.stage = .finished (.error error)) ∨
    ∃ added, machine.progress.table = start ++ added ∧
      machine.entered.Perm (machine.chain ++ (Record.names added).map .text)

section Balance

variable {start added : Table} (grown : before.progress.table = start ++ added)

include grown

/-- Begun before, a type would still be on the chain or be in the table by now. -/
private theorem unbegun {name : Name} (fresh : name ∉ before.chain)
    (absent : ∀ text ∈ Record.names before.progress.table, name ≠ .text text)
    (balanced : before.entered.Perm (before.chain ++ (Record.names added).map .text)) : name ∉ before.entered := by
  intro begun
  rcases List.mem_append.mp (balanced.mem_iff.mp begun) with inside | stored
  · exact fresh inside
  · obtain ⟨text, member, same⟩ := List.mem_map.mp stored
    refine absent text ?_ same.symm
    rw [grown, Record.names_append]
    exact List.mem_append_right _ member

/-- A type that is still being written out is not in the table. -/
private theorem unstored {chain : List Name} {name : String} (once : before.entered.Nodup)
    (new : ∀ name ∈ Record.names start, .text name ∉ before.entered)
    (balanced : before.entered.Perm (chain ++ [.text name] ++ (Record.names added).map .text)) :
    name ∉ Record.names before.progress.table := by
  rw [grown, Record.names_append, List.mem_append, not_or]
  have begun : .text name ∈ before.entered := balanced.mem_iff.mpr (by simp)
  have unique := balanced.nodup once
  refine ⟨fun listed => new name listed begun, fun listed => ?_⟩
  exact (List.nodup_append.mp unique).2.2 _ (by simp) _ (List.mem_map_of_mem listed) rfl

end Balance

theorem Accounted.step {start : Table} (accounted : before.Accounted start) (hoists : setting.hoisting = true)
    (stepped : setting.Steps before after) : after.Accounted start := by
  obtain ⟨once, new, balance⟩ := accounted
  obtain ⟨added, grown, balanced⟩ := balance.resolve_left fun ⟨_, ended⟩ => stepped.unfinished _ ended
  cases stepped.shifts with
  | stays alike =>
    rw [← alike.entered] at once new balanced
    rw [← alike.chain] at balanced
    exact ⟨once, new, .inr ⟨added, alike.table.trans grown, balanced⟩⟩
  | fails ended frames same => exact ⟨same ▸ once, same ▸ new, .inl ⟨_, ended⟩⟩
  | @enters entry known fresh absent chain table more unmet =>
    have apart (name : String) (listed : name ∈ Record.names before.progress.table) : entry.name ≠ .text name :=
      fun same => absent hoists name same listed
    refine ⟨?_, fun name member => ?_, .inr ⟨added, table.trans grown, ?_⟩⟩
    · rw [more, ← List.concat_eq_append]
      exact once.concat (unbegun grown fresh apart balanced)
    · rw [more, List.mem_append, List.mem_singleton, not_or]
      refine ⟨new name member, fun same => apart name ?_ same.symm⟩
      rw [grown, Record.names_append]
      exact List.mem_append_left _ member
    · rw [more, chain, List.append_assoc]
      apply (balanced.append_right [entry.name]).trans
      rw [List.append_assoc]
      exact List.perm_append_comm.append_left _
  | @leaves entry chain stored same unmet =>
    obtain ⟨name, body, named, set⟩ := stored hoists
    rw [chain, named] at balanced
    refine ⟨same ▸ once, same ▸ new, .inr ⟨added ++ [(name, body)], ?_, ?_⟩⟩
    · rw [set, Record.set_of_notMem (unstored grown once new balanced), grown, List.append_assoc]
    · rw [same, Record.names_append, List.map_append]
      apply balanced.trans
      rw [List.append_assoc]
      exact List.perm_append_comm.append_left _

end Machine

namespace Setting

variable {setting : Setting} {first last machine : Machine}

/-- The machine stops in the end, and all that it passes leads there. -/
def Ends (setting : Setting) (first last : Machine) : Prop :=
  setting.next? last = none ∧ ∀ machine, setting.StepsTo first machine → setting.StepsTo machine last

theorem ends_of_stepsTo (path : setting.StepsTo first last) (stopped : setting.next? last = none) :
    setting.Ends first last := by
  refine ⟨stopped, fun machine passed => ?_⟩
  have deterministic : Relator.RightUnique setting.Steps :=
    fun _ _ _ one other => Option.some.inj (one.symm.trans other)
  rcases Relation.ReflTransGen.total_of_right_unique deterministic passed path with ahead | behind
  · exact ahead
  · rcases Relation.ReflTransGen.cases_head behind with rfl | ⟨next, stepped, _⟩
    · exact .refl
    · cases stopped.symm.trans stepped

theorem StepsTo.bounded {offered : List Name} (path : setting.StepsTo first machine) (bounded : first.Bounded offered)
    (catalog : setting.catalog.toList.map Entry.name ⊆ offered) : machine.Bounded offered := by
  induction path with
  | refl => exact bounded
  | tail _ stepped ih => exact ih.step catalog stepped

theorem StepsTo.accounted {start : Table} (path : setting.StepsTo first machine) (accounted : first.Accounted start)
    (hoists : setting.hoisting = true) : machine.Accounted start := by
  induction path with
  | refl => exact accounted
  | tail _ stepped ih => exact ih.step hoists stepped

theorem chain_opening (setting : Setting) (given : Referent) (progress : Progress) :
    (setting.opening given progress).chain = [] := by
  cases given with
  | written value =>
    simp only [opening, begin, Machine.chain]
    cases TypeSpec.read false value <;> rfl
  | entry entry =>
    cases entry with
    | handwritten => rfl
    | checked definition => cases definition <;> rfl

theorem met_opening {given : Referent} {progress : Progress} {entry : Entry}
    (met : entry ∈ (setting.opening given progress).stage.met?) : given = .entry entry := by
  cases given with
  | written value =>
    simp only [opening, begin] at met
    cases read : TypeSpec.read false value <;> rw [read] at met <;> cases met
  | entry entry =>
    cases entry with
    | handwritten => cases met
    | checked definition => cases definition <;> cases met <;> rfl

end Setting

/-- The names of types that may be written out besides those of the catalog. -/
def Referent.names : Referent → List Name
  | .written _ => []
  | .entry type => [type.name]

namespace Compiler

def offers (compiler : Compiler) (given : Referent) : List Name :=
  compiler.catalog.toList.map Entry.name ++ given.names

theorem length_le_of_offers {compiler : Compiler} {given : Referent} {names : List Name} (distinct : names.Nodup)
    (offered : names ⊆ compiler.offers given) : names.length ≤ compiler.catalog.size + 1 := by
  have bound := (distinct.subperm offered).length_le
  have one : given.names.length ≤ 1 := by cases given <;> simp [Referent.names]
  simp only [offers, List.length_append, List.length_map, Catalog.toList] at bound
  unfold Catalog.size
  omega

/-- The machine comes to what the call answers, with the progress of the call. -/
theorem exists_last (compiler : Compiler) (given : Referent) (mode : Mode) :
    ∃ last, (compiler.setting mode).StepsTo ((compiler.setting mode).opening given (compiler.start given mode)) last ∧
      (compiler.setting mode).next? last = none ∧ last.stage = .finished (compiler.compile given mode).outcome ∧
      (compiler.compile given mode).events = last.progress.events.reverse ∧
      ∀ compiled, (compiler.compile given mode).outcome = .ok compiled →
        last.frames = [] ∧ (compiler.compile given mode).compiler.schemasFor mode = last.progress.table := by
  obtain ⟨entered, path⟩ := Setting.finishes_opening given (compiler.start given mode)
  rw [compile_eq]
  cases ran : (Compiled.ofReferent (compiler.setting mode) given).run (compiler.start given mode) with
  | ok compiled progress =>
    rw [ran] at path
    exact ⟨_, path, rfl, rfl, rfl, fun _ _ => ⟨rfl, table_setTable_self ..⟩⟩
  | error error progress =>
    rw [ran] at path
    exact ⟨_, path, rfl, rfl, rfl, nofun⟩

theorem bounded_opening (compiler : Compiler) (given : Referent) (mode : Mode) (progress : Progress) :
    ((compiler.setting mode).opening given progress).Bounded (compiler.offers given) := by
  have empty := Setting.chain_opening (compiler.setting mode) given progress
  refine ⟨empty ▸ .nil, empty ▸ List.nil_subset _, List.nil_subset _, fun entry met => ?_⟩
  cases Setting.met_opening met
  exact List.mem_append_right _ List.mem_cons_self

theorem accounted_opening (compiler : Compiler) (given : Referent) (mode : Mode) (progress : Progress)
    (begun : progress.table = compiler.schemasFor mode) :
    ((compiler.setting mode).opening given progress).Accounted (compiler.schemasFor mode) := by
  have empty := Setting.chain_opening (compiler.setting mode) given progress
  refine ⟨.nil, fun _ _ => List.not_mem_nil, .inr ⟨[], ?_, ?_⟩⟩
  · rw [List.append_nil]
    exact begun
  · rw [empty]
    exact .nil

/-- A compilation comes to its end, and all steps lead there. At each moment the types that are being written
out are distinct types of the catalog or the given one, and references are compiled with just those on the
chain. When types are hoisted, none is begun twice or if the table has it already; and if the call succeeds,
the table grows by one entry for each type that was begun. -/
theorem recursion_bounded (compiler : Compiler) (given : Referent) (mode : Mode) :
    let setting := compiler.setting mode
    let call := compiler.compile given mode
    let first := setting.opening given (compiler.start given mode)
    ∃ last, setting.Ends first last ∧
      last.stage = .finished call.outcome ∧ call.events = last.progress.events.reverse ∧
      (∀ machine, setting.StepsTo first machine →
        (∀ spec, machine.stage = .reference spec →
          setting.Does machine machine.frames ((compileSpec setting machine.chain spec).run machine.progress)) ∧
        machine.chain.Nodup ∧ machine.chain ⊆ compiler.offers given ∧
        machine.chain.length ≤ compiler.catalog.size + 1) ∧
      (mode.isHoisting = true →
        (∀ machine, setting.StepsTo first machine →
          machine.entered.Nodup ∧ machine.entered.length ≤ compiler.catalog.size + 1 ∧
          ∀ name ∈ Record.names (compiler.schemasFor mode), .text name ∉ machine.entered) ∧
        ∀ compiled, call.outcome = .ok compiled → ∃ added,
          call.compiler.schemasFor mode = compiler.schemasFor mode ++ added ∧
          last.entered.Perm ((Record.names added).map .text)) := by
  intro setting call first
  have opened := compiler.bounded_opening given mode (compiler.start given mode)
  have bounded {machine : Machine} (passed : setting.StepsTo first machine) : machine.Bounded (compiler.offers given) :=
    passed.bounded opened (List.subset_append_left _ _)
  obtain ⟨last, path, stopped, answered, logged, kept⟩ := compiler.exists_last given mode
  refine ⟨last, Setting.ends_of_stepsTo path stopped, answered, logged, fun machine passed => ?_, fun hoists => ?_⟩
  · obtain ⟨distinct, chained, -, -⟩ := bounded passed
    refine ⟨fun spec before => ?_, distinct, chained, length_le_of_offers distinct chained⟩
    obtain ⟨stage, frames, progress, entered⟩ := machine
    cases before
    exact Setting.Does.reference _ spec frames rfl progress entered
  · have accounted {machine : Machine} (passed : setting.StepsTo first machine) :
        machine.Accounted (compiler.schemasFor mode) :=
      passed.accounted (compiler.accounted_opening given mode _ rfl) hoists
    refine ⟨fun machine passed => ?_, fun compiled succeeded => ?_⟩
    · obtain ⟨once, new, -⟩ := accounted passed
      exact ⟨once, length_le_of_offers once (bounded passed).entered, new⟩
    · obtain ⟨done, table⟩ := kept compiled succeeded
      obtain ⟨-, -, ⟨error, failed⟩ | ⟨added, grown, balanced⟩⟩ := accounted path
      · cases (answered.symm.trans failed).symm.trans (congrArg Stage.finished succeeded)
      · have empty : last.chain = [] := by rw [Machine.chain, done, Frame.chain]
        rw [empty] at balanced
        exact ⟨added, table.trans grown, balanced⟩

/-- Two types that refer to each other are begun once each. -/
theorem recursion_bounded_of_ring :
    let field (type : String) : Field := ⟨"other", .text type, none, none, none⟩
    let register : List Action :=
      [.registerType (some "first") (.checked (.product "First" [field "second?"] none none "application/json")),
        .registerType (some "second") (.checked (.product "Second" [field "first"] none none "application/json"))]
    let compiler := (new .empty .builtins .refSchema none).after register
    let setting := compiler.setting .refSchema
    let given : Referent := .written (.text "[first]")
    ∃ last, setting.Ends (setting.opening given (compiler.start given .refSchema)) last ∧
      last.entered.Perm [.text "Second", .text "First"] := by
  intro field register compiler setting given
  obtain ⟨last, ends, -, -, -, hoisted⟩ := recursion_bounded compiler given .refSchema
  have stored :
      Record.names ((compiler.compile given .refSchema).compiler.schemasFor .refSchema) = ["Second", "First"] := by
    decide +kernel
  refine ⟨last, ends, ?_⟩
  cases answered : (compiler.compile given .refSchema).outcome with
  | error error =>
    rw [compile_error answered] at stored
    exact absurd stored (by decide +kernel)
  | ok compiled =>
    obtain ⟨added, grown, balanced⟩ := (hoisted rfl).2 compiled answered
    have empty : compiler.schemasFor .refSchema = [] := by decide +kernel
    rw [grown, empty, List.nil_append] at stored
    rwa [stored] at balanced

end Compiler

end Schemata
