import Schemata.Proofs.DefinitionGraph
import Schemata.Proofs.SessionTables

/-! What gets into the tables, exactly. A walk only enters types that are reached from what it was
given, and stores for each the body that its definition alone determines. What a stored body refers to
is stored as well, so by the end everything that is reached has been stored. -/

namespace Schemata

namespace Setting

/-- A body that is stored under a name is the outline of some source with that name. -/
def Stems (setting : Setting) (sources : Definition → Prop) (names : String → Prop) (name : String) (body : Schema) :
    Prop :=
  ∃ definition, sources definition ∧ definition.name = name ∧ definition.kind.isNamed = true ∧
    setting.ShowsBody (setting.Settled names) definition body

def Stores (setting : Setting) : (String → Prop) → String → Schema → Prop :=
  setting.Stems fun definition => .checked definition ∈ setting.catalog.toList

structure Outlines (setting : Setting) (stored : (String → Prop) → String → Schema → Prop) (chain : List Name)
    (progress : Progress) : Prop where
  known : ∀ entry ∈ progress.known, setting.Settled (setting.MayRefer chain progress) entry.1 entry.2
  table : ∀ entry ∈ progress.table, stored (setting.MayRefer chain progress) entry.1 entry.2

variable {setting : Setting} {sources : Definition → Prop} {names other : String → Prop}

theorem Stems.imp {name : String} {body : Schema} (stems : setting.Stems sources names name body)
    (implies : ∀ name, names name → other name) : setting.Stems sources other name body := by
  obtain ⟨definition, own, same, named, shown⟩ := stems
  exact ⟨definition, own, same, named, shown.imp fun _ _ _ settled => settled.imp implies⟩

theorem Stems.of_sources {more : Definition → Prop} {name : String} {body : Schema}
    (stems : setting.Stems sources names name body) (implies : ∀ definition, sources definition → more definition) :
    setting.Stems more names name body := by
  obtain ⟨definition, own, rest⟩ := stems
  exact ⟨definition, implies definition own, rest⟩

theorem Stems.of_grown {catalog : Catalog} (front : setting.catalog.entries <+: catalog.entries) {name : String}
    {body : Schema} (stems : setting.Stems sources names name body) :
    (setting.withCatalog catalog).Stems sources names name body := by
  obtain ⟨definition, own, same, named, shown⟩ := stems
  exact ⟨definition, own, same, named, shown.imp fun _ _ _ settled => settled.of_grown front⟩

theorem Stores.of_grown {catalog : Catalog} (front : setting.catalog.entries <+: catalog.entries) {name : String}
    {body : Schema} (stores : setting.Stores names name body) : (setting.withCatalog catalog).Stores names name body :=
  (Stems.of_grown front stores).of_sources fun _ held => (front.map Prod.snd).subset held

/-- The names of a table before and after some part of a walk: new ones belong to reached types. -/
structure Gathers (reached : Definition → Prop) (before after : Progress) : Prop where
  kept : ∀ name ∈ Record.names before.table, name ∈ Record.names after.table
  new : ∀ name ∈ Record.names after.table, name ∈ Record.names before.table ∨
    ∃ definition, reached definition ∧ definition.kind.isNamed = true ∧ definition.name = name

theorem Gathers.refl {reached : Definition → Prop} (progress : Progress) : Gathers reached progress progress :=
  ⟨fun _ => id, fun _ => .inl⟩

theorem Gathers.trans {reached : Definition → Prop} {first second third : Progress}
    (one : Gathers reached first second) (two : Gathers reached second third) : Gathers reached first third :=
  ⟨fun name member => two.kept name (one.kept name member),
    fun name member => (two.new name member).elim (one.new name) .inr⟩

theorem Gathers.imp {reached more : Definition → Prop} {before after : Progress} (gathers : Gathers reached before after)
    (implies : ∀ definition, reached definition → more definition) : Gathers more before after :=
  ⟨gathers.kept, fun name member => (gathers.new name member).imp_right fun found => by
    obtain ⟨definition, own, rest⟩ := found
    exact ⟨definition, implies definition own, rest⟩⟩

theorem Gathers.hoist {reached : Definition → Prop} {before after : Progress} (gathers : Gathers reached before after)
    {definition : Definition} (own : reached definition) (named : definition.kind.isNamed = true) (body : Schema) :
    Gathers reached before { after with table := Record.set after.table definition.name body } where
  kept name member := Record.mem_names_set (gathers.kept name member) ..
  new name member := by
    rcases Record.eq_or_mem_names member with rfl | old
    · exact .inr ⟨definition, own, named, rfl⟩
    · exact gathers.new name old

theorem Outlines.hoist {stored : (String → Prop) → String → Schema → Prop} {chain : List Name} {progress : Progress}
    {entry : Entry} {name : String} {body : Schema} (outlines : setting.Outlines stored (chain ++ [entry.name]) progress)
    (wider : ∀ names other name body, stored names name body → (∀ name, names name → other name) →
      stored other name body)
    (named : entry.name = .text name)
    (own : stored (setting.MayRefer chain { progress with table := Record.set progress.table name body }) name body) :
    setting.Outlines stored chain { progress with table := Record.set progress.table name body } where
  known held member := (outlines.known held member).imp (MayRefer.leave named)
  table held member := by
    rcases Record.mem_set member with rfl | old
    · exact own
    · exact wider _ _ _ _ (outlines.table held old) (MayRefer.leave named)

section Shown

variable (setting : Setting) {chain : List Name} {progress : Progress}

theorem settles_array {element : TypeSpec} {required nullable : Bool} {items schema : Schema}
    (settled : setting.Settled (setting.MayRefer chain progress) element items)
    (widened : setting.widened nullable (.array items) = .ok schema) :
    setting.Settled (setting.MayRefer chain progress) (.array element required nullable) schema :=
  settled.array widened

theorem settles_primitive {name : String} {required nullable : Bool} {fragment : Value} {schema : Schema}
    (classified : classify setting.catalog setting.registry name = .ok (.primitive fragment))
    (widened : setting.widened nullable (.ofValue fragment) = .ok schema) :
    setting.Settled (setting.MayRefer chain progress) (.named name required nullable) schema :=
  settled_primitive classified widened

theorem settles_scalar {name : String} {required nullable : Bool} {entry : Entry} {fragment : Value} {schema : Schema}
    (classified : classify setting.catalog setting.registry name = .ok (.entry .scalar entry))
    (read : entry.fragment = .ok fragment) (widened : setting.widened nullable (.ofValue fragment) = .ok schema) :
    setting.Settled (setting.MayRefer chain progress) (.named name required nullable) schema :=
  settled_scalar classified read widened

theorem settles_named {name : String} {required nullable : Bool} {kind : Kind} {entry : Entry} {schema : Schema}
    (named : kind.isNamed = true)
    (classified : classify setting.catalog setting.registry name = .ok (.entry kind entry))
    (stood : ∃ name, entry.name = .text name ∧ setting.MayRefer chain progress name ∧
      setting.widened nullable (.reference setting.dialect.base name) = .ok schema) :
    setting.Settled (setting.MayRefer chain progress) (.named name required nullable) schema := by
  obtain ⟨name, known, listed, widened⟩ := stood
  exact settled_named named classified known listed widened

end Shown

/-- Hoisting, as a discipline over the types that are reached. What is said of stored bodies has to hold
of the bodies of these types, and still when more names may be referred to. -/
def outlining (setting : Setting) (hoists : setting.hoisting = true) (built : setting.catalog.OfDefinitions)
    (reached : Definition → Prop) (stored : (String → Prop) → String → Schema → Prop)
    (closed : ∀ one other, reached one → setting.catalog.Uses setting.registry one other → reached other)
    (wider : ∀ names other name body, stored names name body → (∀ name, names name → other name) →
      stored other name body)
    (stores : ∀ names definition body, reached definition → definition.kind.isNamed = true →
      setting.ShowsBody (setting.Settled names) definition body → stored names definition.name body) :
    Discipline setting where
  rules chain :=
    { invariant := setting.Outlines stored chain, growth := Gathers reached, refl := .refl, trans := .trans }
  admits _ spec := ∀ definition, setting.catalog.Denotes setting.registry spec definition → reached definition
  enters _ kind entry := ∃ definition, entry = .checked definition ∧ kind = definition.kind ∧ reached definition
  shows chain spec schema progress := setting.Settled (setting.MayRefer chain progress) spec schema
  stands chain entry nullable schema progress :=
    ∃ name, entry.name = .text name ∧ setting.MayRefer chain progress name ∧
      setting.widened nullable (.reference setting.dialect.base name) = .ok schema
  stable _ _ _ _ _ grown settled := settled.imp (MayRefer.grow grown.kept)
  silent _ outlines := ⟨⟨outlines.known, outlines.table⟩, fun _ => id, fun _ => .inl⟩
  recalled outlines _ found := Settled.optional.mp (outlines.known _ (Record.mem_of_lookup found))
  remember outlines _ settled :=
    ⟨⟨List.forall_mem_cons.mpr ⟨Settled.optional.mpr settled, outlines.known⟩, outlines.table⟩, fun _ => id, fun _ => .inl⟩
  element admitted := admitted
  array := @settles_array setting
  primitive := @settles_primitive setting
  scalar := @settles_scalar setting
  named := @settles_named setting
  entered admitted classified := by
    obtain ⟨definition, rfl⟩ := built.checked (mem_of_classify_eq classified)
    exact ⟨definition, rfl, (classify_checked classified).symm, admitted definition ⟨_, classified⟩⟩
  mentioned _ entered _ _ mentions := by
    obtain ⟨definition, rfl, -, own⟩ := entered
    exact fun other denotes => closed definition other own ⟨_, mentions definition rfl, denotes⟩
  asked entered mentions := by
    obtain ⟨definition, rfl, -, own⟩ := entered
    exact fun other denotes => closed definition other own ⟨_, mentions definition rfl, denotes⟩
  enter outlines := ⟨fun held member => (outlines.known held member).imp MayRefer.enter,
    fun held member => wider _ _ _ _ (outlines.table held member) MayRefer.enter⟩
  inlined inline _ _ _ _ _ _ _ _ := by simp [hoists] at inline
  referred hoisting _ _ known listed widened := ⟨_, known, ⟨hoisting, known ▸ listed⟩, widened⟩
  hoisted _ kindNamed entered known _ _ _ inner grown shown := by
    obtain ⟨definition, rfl, rfl, own⟩ := entered
    cases known
    refine ⟨inner.hoist wider rfl (stores _ _ _ own kindNamed ?_), grown.hoist own kindNamed _⟩
    exact shown.imp fun _ _ _ settled => settled.imp (MayRefer.leave rfl)

/-- A call that was answered: what it is about is known, and what that refers to is settled. -/
structure Meets (setting : Setting) (names : String → Prop) (given : Referent) : Prop where
  resolved : ∀ value, given = .written value → ∃ spec found, TypeSpec.read false value = .ok spec ∧
    classify setting.catalog setting.registry spec.base = .ok found
  held : ∀ root, setting.catalog.Starts setting.registry given root → .checked root ∈ setting.catalog.toList
  listed : ∀ root, setting.catalog.Starts setting.registry given root → root.kind.isNamed = true → names root.name
  mentioned : ∀ root spec, setting.catalog.Starts setting.registry given root → root.kind = .input →
    root.Mentions spec → ∃ schema, setting.Settled names spec schema

theorem Meets.imp {given : Referent} (meets : setting.Meets names given)
    (implies : ∀ name, names name → other name) : setting.Meets other given where
  resolved := meets.resolved
  held := meets.held
  listed root starts named := implies _ (meets.listed root starts named)
  mentioned root spec starts input mentions := by
    obtain ⟨schema, settled⟩ := meets.mentioned root spec starts input mentions
    exact ⟨schema, settled.imp implies⟩

theorem Meets.of_grown {catalog : Catalog} (front : setting.catalog.entries <+: catalog.entries) {given : Referent}
    (meets : setting.Meets names given) : (setting.withCatalog catalog).Meets names given := by
  -- what a call is about was found in the smaller catalog already
  have before {root : Definition} (starts : catalog.Starts setting.registry given root) :
      setting.catalog.Starts setting.registry given root := by
    cases starts with
    | definition => exact .definition root
    | written read denotes =>
      obtain ⟨spec, found, again, classified⟩ := meets.resolved _ rfl
      cases read.symm.trans again
      obtain ⟨kind, later⟩ := denotes
      cases (Catalog.classify_of_grown front classified).symm.trans later
      exact .written read ⟨kind, classified⟩
  refine ⟨fun value same => ?_, fun root starts => ?_, fun root starts => meets.listed root (before starts), ?_⟩
  · obtain ⟨spec, found, read, classified⟩ := meets.resolved value same
    exact ⟨spec, found, read, Catalog.classify_of_grown front classified⟩
  · exact (front.map Prod.snd).subset (meets.held root (before starts))
  · intro root spec starts input mentions
    obtain ⟨schema, settled⟩ := meets.mentioned root spec (before starts) input mentions
    exact ⟨schema, settled.of_grown front⟩

/-- What a stored type refers to is settled. -/
theorem settled_of_stored (built : setting.catalog.OfDefinitions) {table : Table}
    (stored : ∀ entry ∈ table, setting.Stores names entry.1 entry.2) {definition : Definition}
    (held : .checked definition ∈ setting.catalog.toList) (listed : definition.name ∈ Record.names table)
    {spec : TypeSpec} (mentions : definition.Mentions spec) : ∃ schema, setting.Settled names spec schema := by
  obtain ⟨body, member⟩ := Record.exists_of_mem_names listed
  obtain ⟨other, otherHeld, same, -, shown⟩ := stored _ member
  cases built.eq_of_name held otherHeld (congrArg Name.text same.symm)
  exact shown.mentioned mentions

/-- Everything that is reached from a call that was answered has been stored, and what it refers to
is settled. -/
theorem Meets.settles (built : setting.catalog.OfDefinitions) {table : Table}
    (stored : ∀ entry ∈ table, setting.Stores (· ∈ Record.names table) entry.1 entry.2) {given : Referent}
    (meets : setting.Meets (· ∈ Record.names table) given) {definition : Definition}
    (reaches : setting.catalog.Reaches setting.registry given definition) :
    (definition.kind.isNamed = true → definition.name ∈ Record.names table) ∧
      ∀ spec, definition.Mentions spec → ∃ schema, setting.Settled (· ∈ Record.names table) spec schema := by
  obtain ⟨root, starts, path⟩ := reaches
  induction path with
  | refl =>
    refine ⟨meets.listed root starts, fun spec mentions => ?_⟩
    by_cases input : root.kind = .input
    · exact meets.mentioned root spec starts input mentions
    · cases root with
      | scalar | sum => exact mentions.elim
      | input => exact absurd rfl input
      | product | map | union =>
        exact settled_of_stored built stored (meets.held _ starts) (meets.listed _ starts rfl) mentions
  | @tail middle last _ uses ih =>
    obtain ⟨spec, mentions, denotes⟩ := uses
    obtain ⟨schema, settled⟩ := ih.2 spec mentions
    refine ⟨settled.listed last denotes, fun next mentions => ?_⟩
    cases last with
    | scalar | sum => exact mentions.elim
    | input =>
      obtain ⟨found, classified, noInput⟩ := classified_of_outline settled.outlined
      exact absurd (Except.ok.inj (classified.symm.trans denotes.kind)) (noInput _)
    | product | map | union =>
      exact settled_of_stored built stored denotes.held (settled.listed _ denotes rfl) mentions

private theorem meets_written {value : Value} {spec : TypeSpec} {found : Classified}
    (read : TypeSpec.read false value = .ok spec)
    (classified : classify setting.catalog setting.registry spec.base = .ok found)
    (listed : ∀ root, setting.catalog.Denotes setting.registry spec root → root.kind.isNamed = true → names root.name)
    (mentioned : ∀ root next, found = .entry .input (.checked root) → root.Mentions next →
      ∃ schema, setting.Settled names next schema) : setting.Meets names (.written value) := by
  have denotes {root : Definition} (starts : setting.catalog.Starts setting.registry (.written value) root) :
      setting.catalog.Denotes setting.registry spec root := by
    cases starts with
    | written again denotes =>
      cases read.symm.trans again
      exact denotes
  refine ⟨fun other same => ?_, fun root starts => (denotes starts).held, fun root starts => listed root (denotes starts),
    fun root next starts input mentions => ?_⟩
  · cases same
    exact ⟨spec, found, read, classified⟩
  · have same := classified.symm.trans (denotes starts).kind
    rw [input] at same
    exact mentioned root next (Except.ok.inj same) mentions

private theorem meets_definition {definition : Definition} (held : .checked definition ∈ setting.catalog.toList)
    (listed : definition.kind.isNamed = true → names definition.name)
    (mentioned : definition.kind = .input → ∀ spec, definition.Mentions spec → ∃ schema, setting.Settled names spec schema) :
    setting.Meets names (.entry (.checked definition)) := by
  refine ⟨nofun, fun root starts => ?_, fun root starts => ?_, fun root spec starts => ?_⟩
  · cases starts
    exact held
  · cases starts
    exact listed
  · cases starts
    exact fun input => mentioned input spec

theorem Answers.meets {shows : TypeSpec → Schema → Prop} {stands : Entry → Schema → Prop} {given : Referent}
    {compiled : Compiled} (held : ∀ entry, given = .entry entry → entry ∈ setting.catalog.toList)
    (answers : setting.Answers shows stands given compiled)
    (settles : ∀ spec schema, shows spec schema → setting.Settled names spec schema)
    (lists : ∀ definition schema, stands (.checked definition) schema → names definition.name) :
    setting.Meets names given := by
  cases answers with
  | @reference value spec schema read shown =>
    have settled := settles spec schema shown
    obtain ⟨found, classified, noInput⟩ := classified_of_outline settled.outlined
    exact meets_written read classified settled.listed fun root next isInput => absurd isInput (noInput _)
  | input read classified shown =>
    refine meets_written read classified (fun root denotes named => ?_) fun root next same mentions => ?_
    · have same := Except.ok.inj (classified.symm.trans denotes.kind)
      rw [← (Classified.entry.inj same).1] at named
      cases named
    · cases same
      exact (shown.mentioned mentions).imp (settles next)
  | parameters shown =>
    exact meets_definition (held _ rfl) nofun fun _ spec mentions => (shown.mentioned mentions).imp (settles spec)
  | fragment => exact meets_definition (held _ rfl) nofun nofun
  | type named stood =>
    apply meets_definition (held _ rfl) (fun _ => lists _ _ stood)
    intro input
    rw [input] at named
    cases named

end Setting

namespace Compiler

def hoisting (compiler : Compiler) (dialect : Dialect) : Setting where
  catalog := compiler.catalog
  registry := compiler.registry
  dialect
  hoisting := true

/-- A type may only be given as an object if the catalog holds it, only checked definitions are
registered, and primitives stay as they are. -/
def Admits (compiler : Compiler) : Action → Prop
  | .compile given _ | .compileParameters given _ => ∀ entry, given = .entry entry → entry ∈ compiler.catalog.toList
  | .registerType _ entry => ∃ definition, entry = .checked definition
  | .registerPrimitive .. => False

def Orderly : Compiler → List Action → Prop
  | _, [] => True
  | compiler, action :: rest => compiler.Admits action ∧ (compiler.act action).Orderly rest

theorem Admits.referent {compiler : Compiler} {action : Action} {given : Referent} {mode : Mode}
    (admitted : compiler.Admits action) (call : action.call? = some (given, mode)) :
    ∀ entry, given = .entry entry → entry ∈ compiler.catalog.toList := by
  cases action with
  | compile | compileParameters => cases call; exact admitted
  | registerType | registerPrimitive => cases call

/-- The tables hold what is reached from some calls, and nothing else. -/
structure Tracks (compiler : Compiler) (calls : List (Referent × Mode)) : Prop where
  built : compiler.catalog.OfDefinitions
  stored : ∀ dialect, ∀ entry ∈ compiler.table dialect,
    (compiler.hoisting dialect).Stores (· ∈ Record.names (compiler.table dialect)) entry.1 entry.2
  reached : ∀ dialect, ∀ name ∈ Record.names (compiler.table dialect), ∃ given mode, (given, mode) ∈ calls ∧
    mode.isHoisting = true ∧ compiler.dialect mode = dialect ∧
      ∃ definition, compiler.catalog.Reaches compiler.registry given definition ∧
        definition.kind.isNamed = true ∧ definition.name = name
  met : ∀ given mode, (given, mode) ∈ calls → mode.isHoisting = true →
    (compiler.hoisting (compiler.dialect mode)).Meets
      (· ∈ Record.names (compiler.table (compiler.dialect mode))) given

variable {compiler : Compiler} {given : Referent} {mode : Mode} {calls : List (Referent × Mode)}

theorem setting_eq_hoisting (hoists : mode.isHoisting = true) :
    compiler.setting mode = compiler.hoisting (compiler.dialect mode) := by
  simp only [setting, Compiler.hoisting, hoists]

/-- What a hoisting call answers and does to its table, once the table is as it should be. -/
theorem compile_settles {compiled : Compiled} (tracks : compiler.Tracks calls) (hoists : mode.isHoisting = true)
    (held : ∀ entry, given = .entry entry → entry ∈ compiler.catalog.toList)
    (answered : (compiler.compile given mode).outcome = .ok compiled) :
    ∃ table, (compiler.compile given mode).compiler = compiler.setTable (compiler.dialect mode) table ∧
      (∀ entry ∈ table,
        (compiler.hoisting (compiler.dialect mode)).Stores (· ∈ Record.names table) entry.1 entry.2) ∧
      Setting.Gathers (compiler.catalog.Reaches compiler.registry given)
        (compiler.start given mode) { compiler.start given mode with table } ∧
      (compiler.hoisting (compiler.dialect mode)).Answers
        ((compiler.hoisting (compiler.dialect mode)).Settled (· ∈ Record.names table))
        (fun entry _ => ∃ name ∈ Record.names table, entry.name = .text name) given compiled := by
  obtain ⟨progress, run, same⟩ := compile_ok answered
  rw [setting_eq_hoisting hoists] at run
  have begins : (compiler.hoisting (compiler.dialect mode)).Outlines (compiler.hoisting (compiler.dialect mode)).Stores []
      (compiler.start given mode) :=
    ⟨nofun, fun entry member => (tracks.stored _ entry member).imp fun name listed => ⟨rfl, .inl listed⟩⟩
  let discipline := (compiler.hoisting (compiler.dialect mode)).outlining rfl tracks.built
    (fun definition => .checked definition ∈ compiler.catalog.toList ∧
      compiler.catalog.Reaches compiler.registry given definition) (compiler.hoisting (compiler.dialect mode)).Stores
    (fun one other own uses => by
      obtain ⟨-, root, starts, path⟩ := own
      exact ⟨Catalog.Uses.held uses, root, starts, path.tail uses⟩)
    (fun _ _ _ _ => Setting.Stems.imp) (fun _ definition _ own named shown => ⟨definition, own.1, rfl, named, shown⟩)
  have received : discipline.Receives given := by
    cases given with
    | written value =>
      exact fun spec read definition denotes => ⟨denotes.held, definition, .written read denotes, .refl⟩
    | entry entry =>
      obtain ⟨definition, rfl⟩ := tracks.built.checked (held entry rfl)
      exact ⟨definition, rfl, rfl, held _ rfl, definition, .definition definition, .refl⟩
  obtain ⟨kept, grown, answers⟩ := discipline.ensures_ofReferent given received _ _ _ begins run
  refine ⟨progress.table, same, fun entry member => ?_, Setting.Gathers.imp ⟨grown.kept, grown.new⟩ fun _ => And.right, ?_⟩
  · exact Setting.Stems.imp (kept.table entry member) fun name refers => refers.settled.2
  · refine answers.imp (fun spec schema settled => settled.imp fun name refers => refers.settled.2) ?_
    intro entry schema stands
    obtain ⟨name, same, refers, -⟩ := stands
    exact ⟨name, refers.settled.2, same⟩

theorem compile_hoists {compiled : Compiled} (tracks : compiler.Tracks calls) (hoists : mode.isHoisting = true)
    (held : ∀ entry, given = .entry entry → entry ∈ compiler.catalog.toList)
    (answered : (compiler.compile given mode).outcome = .ok compiled) :
    ∃ table, (compiler.compile given mode).compiler = compiler.setTable (compiler.dialect mode) table ∧
      (∀ entry ∈ table,
        (compiler.hoisting (compiler.dialect mode)).Stores (· ∈ Record.names table) entry.1 entry.2) ∧
      Setting.Gathers (compiler.catalog.Reaches compiler.registry given)
        (compiler.start given mode) { compiler.start given mode with table } ∧
      (compiler.hoisting (compiler.dialect mode)).Meets (· ∈ Record.names table) given := by
  obtain ⟨table, same, stored, gathers, answers⟩ := compile_settles tracks hoists held answered
  refine ⟨table, same, stored, gathers, answers.meets held (fun _ _ settled => settled) ?_⟩
  intro definition schema stands
  obtain ⟨name, listed, named⟩ := stands
  cases named
  exact listed

/-- A call that does not hoist leaves all tables as they were. -/
private theorem Tracks.compile_inline {compiled : Compiled} (tracks : compiler.Tracks calls)
    (inline : mode.isHoisting = false) (answered : (compiler.compile given mode).outcome = .ok compiled) :
    (compiler.compile given mode).compiler.Tracks (calls ++ [(given, mode)]) := by
  obtain ⟨others, -, unhoisted⟩ := compile_appends answered
  obtain ⟨progress, -, same⟩ := compile_ok answered
  have tables (dialect : Dialect) : (compiler.compile given mode).compiler.table dialect = compiler.table dialect := by
    by_cases own : dialect = compiler.dialect mode
    · rw [own, unhoisted inline]
    · exact others dialect own
  rw [same] at tables ⊢
  refine ⟨tracks.built, fun dialect => ?_, fun dialect name member => ?_, fun other called member hoisting => ?_⟩
  · rw [tables]
    exact tracks.stored dialect
  · obtain ⟨other, called, call, rest⟩ := tracks.reached dialect name (tables dialect ▸ member)
    exact ⟨other, called, List.mem_append_left _ call, rest⟩
  · rcases List.mem_append.mp member with old | new
    · rw [tables]
      exact tracks.met other called old hoisting
    · cases List.mem_singleton.mp new
      simp [inline] at hoisting

/-- A call that hoists adds what is reached from it to its table. -/
private theorem Tracks.compile_hoists {compiled : Compiled} (tracks : compiler.Tracks calls)
    (hoists : mode.isHoisting = true) (held : ∀ entry, given = .entry entry → entry ∈ compiler.catalog.toList)
    (answered : (compiler.compile given mode).outcome = .ok compiled) :
    (compiler.compile given mode).compiler.Tracks (calls ++ [(given, mode)]) := by
  obtain ⟨table, same, stored, ⟨kept, new⟩, meets⟩ := Compiler.compile_hoists tracks hoists held answered
  rw [same]
  have grown (dialect : Dialect) : ∀ name ∈ Record.names (compiler.table dialect),
      name ∈ Record.names ((compiler.setTable (compiler.dialect mode) table).table dialect) := by
    by_cases own : dialect = compiler.dialect mode
    · rw [own, table_setTable_self]
      exact kept
    · rw [table_setTable_other _ own]
      exact fun _ => id
  refine ⟨tracks.built, fun dialect => ?_, fun dialect name member => ?_, fun other called member hoisting => ?_⟩
  · by_cases own : dialect = compiler.dialect mode
    · rw [own, table_setTable_self]
      exact stored
    · rw [table_setTable_other _ own]
      exact tracks.stored dialect
  · have earlier (listed : name ∈ Record.names (compiler.table dialect)) := tracks.reached dialect name listed
    by_cases own : dialect = compiler.dialect mode
    · rw [own, table_setTable_self] at member
      rcases new name member with old | ⟨definition, reaches⟩
      · obtain ⟨other, called, call, rest⟩ := earlier (own ▸ old)
        exact ⟨other, called, List.mem_append_left _ call, rest⟩
      · exact ⟨given, mode, by simp, hoists, own.symm, definition, reaches⟩
    · rw [table_setTable_other _ own] at member
      obtain ⟨other, called, call, rest⟩ := earlier member
      exact ⟨other, called, List.mem_append_left _ call, rest⟩
  · rcases List.mem_append.mp member with old | new
    · exact (tracks.met other called old hoisting).imp (grown _)
    · cases List.mem_singleton.mp new
      apply meets.imp
      intro name listed
      rw [← table_setTable_self compiler (compiler.dialect mode) table] at listed
      exact listed

private theorem Tracks.compile {compiled : Compiled} (tracks : compiler.Tracks calls)
    (held : ∀ entry, given = .entry entry → entry ∈ compiler.catalog.toList)
    (answered : (compiler.compile given mode).outcome = .ok compiled) :
    (compiler.compile given mode).compiler.Tracks (calls ++ [(given, mode)]) := by
  cases hoists : mode.isHoisting with
  | false => exact tracks.compile_inline hoists answered
  | true => exact tracks.compile_hoists hoists held answered

private theorem Tracks.register (tracks : compiler.Tracks calls) {identifier : Option String} {definition : Definition}
    {catalog : Catalog} (accepted : compiler.catalog.register identifier (.checked definition) = .ok catalog) :
    { compiler with catalog : Compiler }.Tracks calls := by
  obtain ⟨chosen, name, -, -, -, grown, -⟩ := Catalog.register_ok accepted
  have front : compiler.catalog.entries <+: catalog.entries := ⟨_, grown.symm⟩
  refine ⟨.register tracks.built accepted, fun dialect entry member => ?_, fun dialect name member => ?_, ?_⟩
  · exact (tracks.stored dialect entry member).of_grown front
  · obtain ⟨given, mode, call, hoists, own, reached, reaches, rest⟩ := tracks.reached dialect name member
    exact ⟨given, mode, call, hoists, own, reached, reaches.of_grown front, rest⟩
  · exact fun given mode call hoists => (tracks.met given mode call hoists).of_grown front

theorem Tracks.act (tracks : compiler.Tracks calls) {action : Action} (admitted : compiler.Admits action) :
    (compiler.act action).Tracks (calls ++ (compiler.success? action).toList) := by
  have taken := compiler.step action
  unfold success?
  generalize compiler.act action = after at taken ⊢
  generalize compiler.answer action = answer at taken ⊢
  cases taken with
  | failed | refused => simpa using tracks
  | primitive => exact admitted.elim
  | registered accepted =>
    obtain ⟨definition, rfl⟩ := admitted
    simpa using tracks.register accepted
  | answered call succeeded => simpa [call] using tracks.compile (admitted.referent call) succeeded

theorem Tracks.after (tracks : compiler.Tracks calls) {actions : List Action} (orderly : compiler.Orderly actions) :
    (compiler.after actions).Tracks (calls ++ compiler.successes actions) := by
  induction actions generalizing compiler calls with
  | nil => simpa [successes, Compiler.after] using tracks
  | cons action rest ih =>
    have later := ih (tracks.act orderly.1) orderly.2
    rwa [List.append_assoc] at later

theorem new_tracks {catalog : Catalog} (built : catalog.OfDefinitions) (registry : Registry) (mode : Mode)
    (base? : Option String) : (new catalog registry mode base?).Tracks [] :=
  ⟨built, by simp [new, Compiler.table], by simp [new, Compiler.table, Record.names], nofun⟩

theorem Tracks.mem_names_iff (tracks : compiler.Tracks calls) (dialect : Dialect) (name : String) :
    name ∈ Record.names (compiler.table dialect) ↔ ∃ given mode, (given, mode) ∈ calls ∧ mode.isHoisting = true ∧
      compiler.dialect mode = dialect ∧ ∃ definition, compiler.catalog.Reaches compiler.registry given definition ∧
        definition.kind.isNamed = true ∧ definition.name = name := by
  constructor
  · exact tracks.reached dialect name
  · intro found
    obtain ⟨given, mode, call, hoists, rfl, definition, reaches, named, rfl⟩ := found
    exact ((tracks.met given mode call hoists).settles tracks.built (tracks.stored _) reaches).1 named

theorem Tracks.outlined (tracks : compiler.Tracks calls) {dialect : Dialect} {name : String} {body : Schema}
    (member : (name, body) ∈ compiler.table dialect) : ∃ definition,
      .checked definition ∈ compiler.catalog.toList ∧ definition.name = name ∧ definition.kind.isNamed = true ∧
        (∀ other ∈ compiler.catalog.toList, other.name = .text name → other = .checked definition) ∧
        (compiler.hoisting dialect).bodyOutline? definition = some body := by
  obtain ⟨definition, held, same, named, shown⟩ := tracks.stored dialect _ member
  refine ⟨definition, held, same, named, fun other otherHeld again => ?_, ?_⟩
  · exact tracks.built.eq_of_name otherHeld held (again.trans (congrArg Name.text same.symm))
  · exact Setting.bodyOutline?_eq_some (shown.imp fun _ _ _ settled => settled.outlined)

/-- The names in a table are those of the types that are reached from the calls that hoisted into it
and succeeded, and what is stored under a name is what its definition alone determines. -/
theorem tables_hold_what_is_reached (catalog : Catalog) (registry : Registry) (mode : Mode) (base? : Option String)
    (actions : List Action) (built : catalog.OfDefinitions)
    (orderly : (new catalog registry mode base?).Orderly actions) :
    let compiler := (new catalog registry mode base?).after actions
    ∀ dialect,
      (∀ name, name ∈ Record.names (compiler.table dialect) ↔
        ∃ given called, (given, called) ∈ (new catalog registry mode base?).successes actions ∧
          called.isHoisting = true ∧ compiler.dialect called = dialect ∧
          ∃ definition, compiler.catalog.Reaches compiler.registry given definition ∧
            definition.kind.isNamed = true ∧ definition.name = name) ∧
      ∀ name body, (name, body) ∈ compiler.table dialect → ∃ definition,
        .checked definition ∈ compiler.catalog.toList ∧ definition.name = name ∧ definition.kind.isNamed = true ∧
          (∀ other ∈ compiler.catalog.toList, other.name = .text name → other = .checked definition) ∧
          (compiler.hoisting dialect).bodyOutline? definition = some body := by
  intro compiler dialect
  have tracks : compiler.Tracks ((new catalog registry mode base?).successes actions) :=
    (new_tracks built registry mode base?).after orderly
  exact ⟨tracks.mem_names_iff dialect, fun name body member => tracks.outlined member⟩

/-- A product reaches the type of its field and itself, but not the type of a field with alternatives. -/
theorem tables_hold_what_is_reached_of_item :
    let color : Definition := .sum "Color" ["red"]
    let size : Definition := .sum "Size" ["small"]
    let item : Definition := .product "Item"
      [⟨"colors", .text "[color]?", none, none, none⟩, ⟨"parts", .text "[item]", none, none, none⟩,
        ⟨"size", .text "size", none, none, some ["large"]⟩] none none "application/json"
    let actions : List Action :=
      [.registerType (some "color") (.checked color), .registerType (some "size") (.checked size),
        .registerType (some "item") (.checked item), .compile (.entry (.checked item)) .refSchema,
        .compile (.written (.text "missing")) .refSchema]
    let begun := Compiler.new .empty .builtins .refSchema none
    let compiler := begun.after actions
    let dialect := compiler.dialect .refSchema
    begun.Orderly actions ∧ Record.names (compiler.table dialect) = ["Color", "Item"] ∧
      (∀ name, name ∈ ["Color", "Item"] ↔ ∃ given called, (given, called) ∈ begun.successes actions ∧
        called.isHoisting = true ∧ compiler.dialect called = dialect ∧
        ∃ definition, compiler.catalog.Reaches compiler.registry given definition ∧
          definition.kind.isNamed = true ∧ definition.name = name) ∧
      ∀ name body, (name, body) ∈ compiler.table dialect → ∃ definition,
        .checked definition ∈ compiler.catalog.toList ∧ definition.name = name ∧ definition.kind.isNamed = true ∧
          (∀ other ∈ compiler.catalog.toList, other.name = .text name → other = .checked definition) ∧
          (compiler.hoisting dialect).bodyOutline? definition = some body := by
  intro color size item actions begun compiler dialect
  have registered : (begun.after (actions.take 3)).catalog.toList = [.checked color, .checked size, .checked item] := rfl
  have held : ∀ entry, Referent.entry (.checked item) = .entry entry →
      entry ∈ (begun.after (actions.take 3)).catalog.toList := by
    intro entry same
    cases same
    simp [registered]
  have orderly : begun.Orderly actions := ⟨⟨color, rfl⟩, ⟨size, rfl⟩, ⟨item, rfl⟩, held, nofun, trivial⟩
  have names : Record.names (compiler.table dialect) = ["Color", "Item"] := by decide +kernel
  have holds := tables_hold_what_is_reached .empty .builtins .refSchema none actions .empty orderly dialect
  exact ⟨orderly, names, names ▸ holds.1, holds.2⟩

end Compiler

end Schemata
