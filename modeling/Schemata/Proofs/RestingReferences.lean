import Schemata.Proofs.HoistedTypes
import Schemata.Proofs.WalkTandems

/-! Hoisting, whoever made the types. Two compilations go side by side: one remembers and has a longer table, the
other remembers nothing. What only the longer table has was stored by calls on the same catalog, so that the other
one can store it as well, whenever it comes to it. Beyond that nothing is asked of what the tables hold. -/

namespace Schemata

namespace Setting

/-- The schema of a reference is its outline, and the type that it names may be referred to. -/
structure Rests (setting : Setting) (names : String → Prop) (spec : TypeSpec) (schema : Schema) : Prop where
  outlined : setting.outline? spec = some schema
  listed : ∀ kind entry, classify setting.catalog setting.registry spec.base = .ok (.entry kind entry) →
    kind.isNamed = true → ∀ name, entry.name = .text name → names name

/-- A type of the catalog has the name, and the references of its body rest on some names. -/
def Backs (setting : Setting) (names : String → Prop) (name : String) : Prop :=
  ∃ kind entry body, entry ∈ setting.catalog.toList ∧ entry.kind? = some kind ∧ entry.name = .text name ∧
    (Scripted.body setting kind entry).script.Shows (setting.Rests names) body

variable {setting : Setting} {names other : String → Prop} {spec : TypeSpec} {schema : Schema} {chain : List Name}

theorem Rests.imp (rests : setting.Rests names spec schema) (implies : ∀ name, names name → other name) :
    setting.Rests other spec schema :=
  ⟨rests.outlined, fun kind entry classified named name same =>
    implies name (rests.listed kind entry classified named name same)⟩

theorem Rests.optional : setting.Rests names spec.optional schema ↔ setting.Rests names spec schema := by
  constructor
  · intro rests
    exact ⟨outline?_optional spec ▸ rests.outlined, spec.base_optional ▸ rests.listed⟩
  · intro rests
    exact ⟨(outline?_optional spec).trans rests.outlined, spec.base_optional.symm ▸ rests.listed⟩

theorem Backs.imp {name : String} (backs : setting.Backs names name) (implies : ∀ name, names name → other name) :
    setting.Backs other name := by
  obtain ⟨kind, entry, body, held, own, same, shown⟩ := backs
  exact ⟨kind, entry, body, held, own, same, shown.imp fun _ _ _ rests => rests.imp implies⟩

/-- The table holds some names, and of the others only some that it may come to hold. -/
def catching (base goal : List String) : Rules where
  invariant progress := (∀ name ∈ base, name ∈ Record.names progress.table) ∧
    ∀ name ∈ Record.names progress.table, name ∈ goal
  growth before after := (∀ name ∈ goal, name ∈ Record.names before.table) → after.table = before.table
  refl _ _ := rfl
  trans first second all := by
    have same := first all
    rw [second (same.symm ▸ all), same]

section Catching

variable (built : setting.catalog.Registered) (hoists : setting.hoisting = true) {base goal : List String}
  {outer : List Name}
  (backed : ∀ name ∈ goal, name ∈ base ∨ setting.Backs (fun name => name ∈ goal ∨ .text name ∈ outer) name)

include built backed

private theorem yields_place_of_backed {kind : Kind} {entry : Entry} {name : String}
    (held : entry ∈ setting.catalog.toList) (own : entry.kind? = some kind) (named : entry.name = .text name)
    (listed : name ∈ goal ∨ .text name ∈ chain)
    (references : entry.name ∉ chain → ∀ spec schema,
      setting.Rests (fun name => name ∈ goal ∨ .text name ∈ outer) spec schema →
      (catching base goal).Yields (compileSpecWith .absent setting (chain ++ [entry.name]) spec) schema) :
    (catching base goal).Yields (place chain entry name fun _ =>
      compileBodyWith .absent setting (chain ++ [entry.name]) kind entry) () := by
  intro before kept
  have note (event : Event) : ∃ after, (Walk.note event).run before = .ok () after ∧
      (catching base goal).invariant after ∧ (catching base goal).growth before after := ⟨_, rfl, kept, fun _ => rfl⟩
  rw [place_run]
  split
  next => exact note _
  next unknown =>
    have absent : name ∉ Record.names before.table := fun inside => unknown (Record.has_iff.mpr inside)
    split
    next => exact note _
    next fresh =>
      have inside : name ∈ goal := listed.resolve_right fun inside => fresh (named ▸ inside)
      obtain ⟨kindToo, entryToo, body, heldToo, ownToo, same, shown⟩ :=
        (backed name inside).resolve_left fun based => absent (kept.1 name based)
      cases built.eq_of_name held heldToo (named.trans same.symm)
      cases own.symm.trans ownToo
      have wrote : (catching base goal).Yields
          (compileBodyWith .absent setting (chain ++ [entry.name]) kind entry) body := by
        rw [compileBodyWith_eq]
        exact Rules.Yields.script (shown.imp fun spec schema _ => references fresh spec schema)
      obtain ⟨middle, ran, ⟨based, within⟩, -⟩ := wrote before kept
      refine ⟨_, Walk.run_bind_ok.mpr ⟨body, middle, ran, rfl⟩, ⟨fun other member => ?_, fun other member => ?_⟩,
        fun all => absurd (all name inside) absent⟩
      · exact Record.mem_names_set (based other member) ..
      · rcases Record.eq_or_mem_names member with rfl | old
        · exact inside
        · exact within other old

include hoists

/-- A reference that rests on the names is compiled to its outline, and only these names come to the table. -/
theorem yields_of_rests (chain : List Name) (within : ∀ name ∈ outer, name ∈ chain)
    (rests : setting.Rests (fun name => name ∈ goal ∨ .text name ∈ chain) spec schema) :
    (catching base goal).Yields (compileSpecWith .absent setting chain spec) schema := by
  induction chain using setting.chain_induction generalizing spec schema with
  | step chain ih =>
    induction spec generalizing schema with
    | array element required nullable inner =>
      obtain ⟨items, outlined, widened⟩ := outline?_array.mp rests.outlined
      rw [compileSpecWith_eq]
      exact (inner ⟨outlined, rests.listed⟩).bind (Rules.Yields.ofAccess widened)
    | named name required nullable =>
      rw [compileSpecWith_eq, Memory.absent, anew]
      cases nameOutline rests.outlined with
      | primitive classified widened =>
        rw [compileNameWith_eq, classified]
        exact Rules.Yields.ofAccess widened
      | scalar classified read widened =>
        rw [compileNameWith_eq, classified]
        exact (Rules.Yields.ofAccess read).bind (Rules.Yields.ofAccess widened)
      | type named classified own widened =>
        have held := mem_of_classify_eq classified
        have listed := rests.listed _ _ classified named _ own
        rw [compileNameWith_named _ named classified, occurrence_hoisting hoists own]
        refine (yields_place_of_backed built backed held (classify_entry.mp classified).2.2 own listed
          fun fresh next inner rests => ?_).bind (Rules.Yields.ofAccess widened)
        exact ih _ held fresh (fun name member => List.mem_append_left _ (within name member))
          (rests.imp fun name => Or.imp_right fun member => List.mem_append_left _ (within _ member))

end Catching

structure Keeps (setting : Setting) (base : List String) (chain : List Name) (progress : Progress) : Prop where
  known : ∀ entry ∈ progress.known, setting.Rests (setting.MayRefer chain progress) entry.1 entry.2
  backed : ∀ name ∈ Record.names progress.table, name ∈ base ∨ setting.Backs (setting.MayRefer chain progress) name

structure Trails (base : List String) (same : Prop) (ahead behind : Progress) : Prop where
  based : ∀ name ∈ base, name ∈ Record.names behind.table
  within : ∀ name ∈ Record.names behind.table, name ∈ Record.names ahead.table
  equal : same → behind.table = ahead.table

private theorem tables_refl (progress : Progress) :
    ∀ name ∈ Record.names progress.table, name ∈ Record.names progress.table := fun _ => id

private theorem tables_trans {first second third : Progress}
    (one : ∀ name ∈ Record.names first.table, name ∈ Record.names second.table)
    (other : ∀ name ∈ Record.names second.table, name ∈ Record.names third.table) :
    ∀ name ∈ Record.names first.table, name ∈ Record.names third.table := fun name member => other name (one name member)

def resting (setting : Setting) (base : List String) (same : Prop) (chain : List Name) : Tandem where
  invariant first second := setting.Keeps base chain first ∧ Trails base same first second
  growth before after := ∀ name ∈ Record.names before.table, name ∈ Record.names after.table
  refl := tables_refl
  trans := @tables_trans

section Resting

variable (built : setting.catalog.Registered) (hoists : setting.hoisting = true) {base : List String} {same : Prop}

include hoists

theorem mayRefer_iff {progress : Progress} {name : String} :
    setting.MayRefer chain progress name ↔ name ∈ Record.names progress.table ∨ .text name ∈ chain := by
  simp [MayRefer, hoists]

private theorem Keeps.catches {ahead : Progress} (keeps : setting.Keeps base chain ahead) :
    ∀ name ∈ Record.names ahead.table, name ∈ base ∨
      setting.Backs (fun name => name ∈ Record.names ahead.table ∨ .text name ∈ chain) name :=
  fun name member => (keeps.backed name member).imp_right fun backs => backs.imp fun _ => (mayRefer_iff hoists).mp

omit hoists in
private theorem Keeps.enter {entry : Entry} {progress : Progress} (keeps : setting.Keeps base chain progress) :
    setting.Keeps base (chain ++ [entry.name]) progress :=
  ⟨fun held member => (keeps.known held member).imp MayRefer.enter,
    fun name member => (keeps.backed name member).imp_right fun backs => backs.imp MayRefer.enter⟩

omit hoists in
/-- A table that is behind may catch up. -/
private theorem Trails.caught {ahead behind after : Progress} (trails : Trails base same ahead behind)
    (kept : (catching base (Record.names ahead.table)).invariant after)
    (grown : (catching base (Record.names ahead.table)).growth behind after) : Trails base same ahead after := by
  refine ⟨kept.1, kept.2, fun asked => ?_⟩
  have equal := trails.equal asked
  rw [grown (equal ▸ fun _ => id), equal]

omit hoists in
private theorem Trails.store {ahead behind : Progress} (trails : Trails base same ahead behind) (name : String)
    (body : Schema) : Trails base same { ahead with table := Record.set ahead.table name body }
      { behind with table := Record.set behind.table name body } := by
  refine ⟨fun text member => Record.mem_names_set (trails.based text member) .., fun text member => ?_,
    fun asked => congrArg (Record.set · name body) (trails.equal asked)⟩
  rcases Record.eq_or_mem_names member with rfl | old
  · exact Record.mem_names_set_self ..
  · exact Record.mem_names_set (trails.within text old) ..

include built

private theorem resting_recalled {first second : Progress}
    (kept : (setting.resting base same chain).invariant first second)
    (found : first.known.lookup spec.optional = some schema) :
    ∃ after, (compileSpecWith .absent setting chain spec).run second = .ok schema after ∧
      (setting.resting base same chain).invariant first after ∧
      setting.Rests (setting.MayRefer chain first) spec schema := by
  obtain ⟨keeps, trails⟩ := kept
  have rests := Rests.optional.mp (keeps.known _ (Record.mem_of_lookup found))
  obtain ⟨after, ran, caught, grown⟩ := yields_of_rests built hoists (keeps.catches hoists) chain (fun _ => id)
    (rests.imp fun _ => (mayRefer_iff hoists).mp) second ⟨trails.based, trails.within⟩
  exact ⟨after, ran, ⟨keeps, trails.caught caught grown⟩, rests⟩

omit hoists built in
private theorem resting_remember {first second : Progress}
    (kept : (setting.resting base same chain).invariant first second)
    (rests : setting.Rests (setting.MayRefer chain first) spec schema) :
    (setting.resting base same chain).invariant { first with known := (spec.optional, schema) :: first.known } second := by
  obtain ⟨keeps, trails⟩ := kept
  exact ⟨⟨List.forall_mem_cons.mpr ⟨Rests.optional.mpr rests, keeps.known⟩, keeps.backed⟩, trails.based, trails.within,
    trails.equal⟩

/-- Seeing to it that a type is in the table, side by side. -/
private theorem resting_place {kind : Kind} {entry : Entry} {name : String} (held : entry ∈ setting.catalog.toList)
    (own : entry.kind? = some kind) (named : entry.name = .text name)
    (body : entry.name ∉ chain → (setting.resting base same (chain ++ [entry.name])).Holds
      (fun body after => (Scripted.body setting kind entry).script.Shows
        (setting.Rests (setting.MayRefer (chain ++ [entry.name]) after)) body)
      (compileBodyWith Walk.memoized setting (chain ++ [entry.name]) kind entry)
      (compileBodyWith .absent setting (chain ++ [entry.name]) kind entry)) :
    (setting.resting base same chain).Holds (fun _ after => setting.MayRefer chain after name)
      (place chain entry name fun _ => compileBodyWith Walk.memoized setting (chain ++ [entry.name]) kind entry)
      (place chain entry name fun _ => compileBodyWith .absent setting (chain ++ [entry.name]) kind entry) := by
  intro first second kept
  obtain ⟨keeps, trails⟩ := kept
  have quiet (event : Event) : setting.Keeps base chain { first with events := event :: first.events } :=
    ⟨keeps.known, keeps.backed⟩
  by_cases ahead : name ∈ Record.names first.table
  · -- the second walk may have to catch up
    obtain ⟨after, ran, caught, grown⟩ := yields_place_of_backed built (keeps.catches hoists) held own named
      (.inl ahead) (fun fresh spec schema rests => yields_of_rests built hoists (keeps.catches hoists) _
        (fun _ => List.mem_append_left _) (rests.imp fun _ => Or.imp_right (List.mem_append_left _)))
      second ⟨trails.based, trails.within⟩
    have caughtUp := trails.caught caught grown
    rw [ran, place_run, if_pos (Record.has_iff.mpr ahead)]
    exact .ok ⟨⟨quiet _, caughtUp.based, caughtUp.within, caughtUp.equal⟩, fun _ => id, hoists, .inl ahead⟩
  · have behind : name ∉ Record.names second.table := fun inside => ahead (trails.within name inside)
    rw [place_run, place_run, if_neg (mt Record.has_iff.mp ahead), if_neg (mt Record.has_iff.mp behind)]
    split
    next inside =>
      exact .ok ⟨⟨quiet _, trails.based, trails.within, trails.equal⟩, fun _ => id, hoists, .inr (named ▸ inside)⟩
    next fresh =>
      refine (body fresh first second ⟨keeps.enter, trails⟩).bind fun written one other known => ?_
      obtain ⟨⟨inner, trailing⟩, grown, shown⟩ := known
      have leaves := @MayRefer.leave setting chain entry one name written named
      have stored : setting.Keeps base chain { one with table := Record.set one.table name written } := by
        refine ⟨fun held member => (inner.known held member).imp leaves, fun text member => ?_⟩
        rcases Record.eq_or_mem_names member with rfl | old
        · exact .inr ⟨kind, entry, written, held, own, named, shown.imp fun _ _ _ rests => rests.imp leaves⟩
        · exact (inner.backed text old).imp_right fun backs => backs.imp leaves
      have level := trailing.store name written
      refine .ok ⟨⟨⟨stored.known, stored.backed⟩, level.based, level.within, level.equal⟩, fun text member => ?_, hoists, ?_⟩
      · exact Record.mem_names_set (grown text member) ..
      · exact .inl (Record.mem_names_set_self ..)

private theorem resting_named {name : String} {required nullable : Bool} {kind : Kind} {entry : Entry}
    (named : kind.isNamed = true)
    (classified : classify setting.catalog setting.registry name = .ok (.entry kind entry))
    (body : entry.name ∉ chain → (setting.resting base same (chain ++ [entry.name])).Holds
      (fun body after => (Scripted.body setting kind entry).script.Shows
        (setting.Rests (setting.MayRefer (chain ++ [entry.name]) after)) body)
      (compileBodyWith Walk.memoized setting (chain ++ [entry.name]) kind entry)
      (compileBodyWith .absent setting (chain ++ [entry.name]) kind entry)) :
    (setting.resting base same chain).Holds
      (fun schema after => setting.Rests (setting.MayRefer chain after) (.named name required nullable) schema)
      (compileNameWith Walk.memoized setting chain name required nullable)
      (compileNameWith .absent setting chain name required nullable) := by
  have held := mem_of_classify_eq classified
  have found : entry.kind? = some kind := (classify_entry.mp classified).2.2
  cases own : entry.name with
  | text text =>
    simp only [compileNameWith_named _ named classified, occurrence_hoisting hoists own]
    have listed := resting_place built hoists held found own body
    refine listed.bind fun _ before mayRefer => Tandem.Holds.ofAccess _ fun schema widened after grown => ?_
    refine ⟨(outline?_named named own classified).mpr widened, fun kindToo other names _ name same => ?_⟩
    cases classified.symm.trans names
    cases own.symm.trans same
    exact mayRefer.grow grown
  | other key shown =>
    simp only [compileNameWith_named _ named classified, occurrence_unsuitable hoists own]
    split
    · exact Tandem.Holds.throw _
    · next fresh =>
      intro first second kept
      exact (body fresh first second ⟨kept.1.enter, kept.2⟩).bind fun _ _ _ _ => .error

end Resting

def restingInTandem (setting : Setting) (built : setting.catalog.Registered) (hoists : setting.hoisting = true)
    (base : List String) (same : Prop) : TandemDiscipline setting where
  tandem := setting.resting base same
  admits _ _ := True
  shows chain spec schema after := setting.Rests (setting.MayRefer chain after) spec schema
  stable _ _ _ _ _ grown rests := rests.imp (MayRefer.grow grown)
  recalled _ kept found := resting_recalled built hoists kept found
  remember kept rests := ⟨resting_remember kept rests, fun _ => id⟩
  element _ := trivial
  array rests widened := ⟨outline?_array.mpr ⟨_, rests.outlined, widened⟩, rests.listed⟩
  primitive classified widened := by
    refine ⟨(outline?_primitive classified).mpr widened, fun kind entry names => ?_⟩
    cases classified.symm.trans names
  scalar classified read widened := by
    refine ⟨(outline?_scalar classified).mpr ⟨_, read, widened⟩, fun kind entry names named => ?_⟩
    cases classified.symm.trans names
    cases named
  asked _ _ _ _ := trivial
  named named classified body := resting_named built hoists named classified body

end Setting

end Schemata
