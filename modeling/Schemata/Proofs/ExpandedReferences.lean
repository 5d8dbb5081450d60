import Schemata.Proofs.InvisibleMemory
import Schemata.Proofs.WalkTandems

/-! Writing types out, whoever made them. A type that was written by hand has no list of its references; what it
refers to is what its body comes to ask. What could be written out once never asks for itself, so it can be written
out again wherever it is asked for, and remembering it makes no difference. -/

namespace Schemata

namespace Setting

variable (setting : Setting)

/-- The schema of a reference with all types written out, whoever made them. -/
def Expands : TypeSpec → Schema → Prop :=
  setting.WritesOut fun shows kind entry body => (Scripted.body setting kind entry).script.Shows shows body

def Calls (one other : Entry) : Prop :=
  ∃ kind spec kindToo, kind.isNamed = true ∧ one.kind? = some kind ∧
    (Scripted.body setting kind one).script.Asks setting.Expands spec ∧
    classify setting.catalog setting.registry spec.base = .ok (.entry kindToo other)

variable {setting} {spec : TypeSpec} {schema : Schema}

theorem Expands.unique {other : Schema} (one : setting.Expands spec schema) (two : setting.Expands spec other) :
    schema = other := by
  refine WritesOut.unique (fun _ shown shownToo same => ?_) one two
  exact shown.unique shownToo same

/-- What can be written out never comes to ask for itself. -/
theorem Expands.accessible (expands : setting.Expands spec schema) {kind : Kind} {entry : Entry}
    (names : classify setting.catalog setting.registry spec.base = .ok (.entry kind entry)) :
    Acc (fun one other => setting.Calls other one) entry := by
  induction expands generalizing kind entry with
  | primitive classified => cases classified.symm.trans names
  | scalar classified =>
    cases classified.symm.trans names
    refine ⟨_, fun other calls => ?_⟩
    obtain ⟨kind, _, _, kindNamed, own, -⟩ := calls
    cases (classify_entry.mp classified).2.2.symm.trans own
    cases kindNamed
  | named kindNamed classified shown inner _ ih =>
    cases classified.symm.trans names
    refine ⟨_, fun other calls => ?_⟩
    obtain ⟨kind, next, _, -, own, asked, leads⟩ := calls
    cases (classify_entry.mp classified).2.2.symm.trans own
    obtain ⟨written, answered⟩ := shown.answers (fun spec _ _ one => Expands.unique (inner spec _ one)) asked
    exact ih next written answered leads
  | array _ _ ih => exact ih names

def Evades (setting : Setting) (names : List Name) (spec : TypeSpec) : Prop :=
  ∀ kind root entry, classify setting.catalog setting.registry spec.base = .ok (.entry kind root) →
    Relation.ReflTransGen setting.Calls root entry → entry.name ∉ names

theorem held_of_calls {kind : Kind} {root entry : Entry}
    (names : classify setting.catalog setting.registry spec.base = .ok (.entry kind root))
    (path : Relation.ReflTransGen setting.Calls root entry) : entry ∈ setting.catalog.toList := by
  cases path with
  | refl => exact mem_of_classify_eq names
  | tail _ calls =>
    obtain ⟨_, _, _, -, -, -, leads⟩ := calls
    exact mem_of_classify_eq leads

/-- What was written out is written out again, unless it leads to a type on the chain. -/
theorem yields_of_expands (built : setting.catalog.Registered) (inline : setting.hoisting = false)
    (expands : setting.Expands spec schema) {chain : List Name} (evades : setting.Evades chain spec) (table : Table) :
    (Rules.still table).Yields (compileSpecWith .absent setting chain spec) schema := by
  refine expands.yields setting.Evades inline table id ?_ evades
  intro chain name required nullable kind entry schema body shows evades kindNamed classified shown inner again
  refine ⟨evades kind entry entry classified .refl, fun yields => ?_⟩
  rw [compileBodyWith_eq]
  refine Rules.Yields.script (shown.imp fun next answer asked own => yields next answer own ?_)
  intro kindToo root last leads path inside
  have calls : setting.Calls entry root :=
    ⟨kind, next, kindToo, kindNamed, (classify_entry.mp classified).2.2, asked.imp inner, leads⟩
  rcases List.mem_append.mp inside with outer | own
  · exact evades kind entry last classified (.head calls path) outer
  · -- a type with the same name is the same type, which would ask for itself
    cases built.eq_of_name (held_of_calls leads path) (mem_of_classify_eq classified) (List.mem_singleton.mp own)
    exact Catalog.no_circle (Expands.accessible again classified) .refl (Relation.TransGen.head' calls path)

/-- The types on the chain come to ask for the reference, one through another. -/
def Follows (setting : Setting) (chain : List Name) (spec : TypeSpec) : Prop :=
  ∀ name ∈ chain, ∃ leader ∈ setting.catalog.toList, leader.name = name ∧ ∀ kind root,
    classify setting.catalog setting.registry spec.base = .ok (.entry kind root) →
      Relation.TransGen setting.Calls leader root

theorem Follows.enter {chain : List Name} {name : String} {required nullable : Bool} {kind : Kind} {entry : Entry}
    {next : TypeSpec} (follows : setting.Follows chain (.named name required nullable)) (kindNamed : kind.isNamed = true)
    (classified : classify setting.catalog setting.registry name = .ok (.entry kind entry))
    (asked : (Scripted.body setting kind entry).script.Asks setting.Expands next) :
    setting.Follows (chain ++ [entry.name]) next := by
  have calls {kindToo : Kind} {root : Entry}
      (leads : classify setting.catalog setting.registry next.base = .ok (.entry kindToo root)) :
      setting.Calls entry root :=
    ⟨kind, next, kindToo, kindNamed, (classify_entry.mp classified).2.2, asked, leads⟩
  intro other inside
  rcases List.mem_append.mp inside with outer | last
  · obtain ⟨leader, held, own, path⟩ := follows other outer
    exact ⟨leader, held, own, fun kindToo root leads => (path kind entry classified).tail (calls leads)⟩
  · refine ⟨entry, mem_of_classify_eq classified, (List.mem_singleton.mp last).symm, fun kindToo root leads => ?_⟩
    exact .single (calls leads)

/-- What was written out does not lead to a type that leads to it. -/
theorem Follows.evades (built : setting.catalog.Registered) {chain : List Name} (follows : setting.Follows chain spec)
    (expands : setting.Expands spec schema) : setting.Evades chain spec := by
  intro kind root entry names path inside
  obtain ⟨leader, held, same, leads⟩ := follows _ inside
  cases built.eq_of_name held (held_of_calls names path) same
  exact Catalog.no_circle (expands.accessible names) path ((leads kind root names).trans_left path)

def expanding (setting : Setting) (table : Table) : Tandem where
  invariant first second := first.table = table ∧ second.table = table ∧
    ∀ entry ∈ first.known, setting.Expands entry.1 entry.2
  growth _ _ := True
  refl _ := trivial
  trans _ _ := trivial

private theorem expanding_recalled (built : setting.catalog.Registered) (inline : setting.hoisting = false)
    {table : Table} {chain : List Name} (follows : setting.Follows chain spec) {first second : Progress}
    (kept : (setting.expanding table).invariant first second) (found : first.known.lookup spec.optional = some schema) :
    ∃ after, (compileSpecWith .absent setting chain spec).run second = .ok schema after ∧
      (setting.expanding table).invariant first after ∧ setting.Expands spec schema := by
  obtain ⟨here, there, known⟩ := kept
  have expands := WritesOut.optional.mp (known _ (Record.mem_of_lookup found))
  obtain ⟨after, ran, still, -⟩ := yields_of_expands built inline expands (follows.evades built expands) table second there
  exact ⟨after, ran, ⟨here, still, known⟩, expands⟩

private theorem expanding_remember {table : Table} {first second : Progress}
    (kept : (setting.expanding table).invariant first second) (expands : setting.Expands spec schema) :
    (setting.expanding table).invariant { first with known := (spec.optional, schema) :: first.known } second := by
  obtain ⟨here, there, known⟩ := kept
  exact ⟨here, there, List.forall_mem_cons.mpr ⟨WritesOut.optional.mpr expands, known⟩⟩

private theorem expanding_named (inline : setting.hoisting = false) {table : Table} {chain : List Name} {name : String}
    {required nullable : Bool} {kind : Kind} {entry : Entry} (named : kind.isNamed = true)
    (classified : classify setting.catalog setting.registry name = .ok (.entry kind entry))
    (body : entry.name ∉ chain → (setting.expanding table).Holds
      (fun body _ => (Scripted.body setting kind entry).script.Shows setting.Expands body)
      (compileBodyWith Walk.memoized setting (chain ++ [entry.name]) kind entry)
      (compileBodyWith .absent setting (chain ++ [entry.name]) kind entry)) :
    (setting.expanding table).Holds (fun schema _ => setting.Expands (.named name required nullable) schema)
      (compileNameWith Walk.memoized setting chain name required nullable)
      (compileNameWith .absent setting chain name required nullable) := by
  simp only [compileNameWith_named _ named classified, occurrence_inline inline]
  split
  · exact Tandem.Holds.throw _
  · next fresh =>
    refine (body fresh).bind fun body _ shown => Tandem.Holds.ofAccess _ fun schema widened _ _ => ?_
    exact WritesOut.named named classified shown (fun _ _ => id) widened

def expandingInTandem (setting : Setting) (built : setting.catalog.Registered) (inline : setting.hoisting = false)
    (table : Table) : TandemDiscipline setting where
  tandem _ := setting.expanding table
  admits := setting.Follows
  shows _ spec schema _ := setting.Expands spec schema
  stable _ _ _ _ _ _ expands := expands
  recalled follows kept found := expanding_recalled built inline follows kept found
  remember kept expands := ⟨expanding_remember kept expands, trivial⟩
  element follows := follows
  array expands widened := WritesOut.array expands widened
  primitive classified widened := WritesOut.primitive classified widened
  scalar classified read widened := WritesOut.scalar classified read widened
  asked follows named classified asked :=
    follows.enter named classified (asked.imp fun _ _ answered => answered.elim fun _ => id)
  named named classified body := expanding_named inline named classified body

end Setting

end Schemata
