import Schemata.Proofs.SourcedTables

/-! The order of tables. The body of a type is stored when it is done, after all that it refers to, unless that is
still being written out itself. What is still being written out stands on the chain, and each name on the chain leads
to the last one: so a reference to what is stored later is part of a circle. -/

namespace Schemata

/-- Names in dependency order: what a name refers to stands before it, or refers back to it in the end. -/
inductive DependencyOrder (refers : String → String → Prop) : List String → Prop where
  | nil : DependencyOrder refers []
  | snoc {names : List String} {name : String} (earlier : DependencyOrder refers names)
      (backed : ∀ target, refers name target → target ∈ names ∨ Relation.TransGen refers target name) :
      DependencyOrder refers (names ++ [name])

namespace DependencyOrder

variable {refers other : String → String → Prop} {names : List String}

theorem imp (ordered : DependencyOrder refers names)
    (within : ∀ name ∈ names, ∀ target, other name target → refers name target)
    (back : ∀ name ∈ names, ∀ target, refers name target → Relation.TransGen refers target name →
      Relation.TransGen other target name) : DependencyOrder other names := by
  induction ordered with
  | nil => exact .nil
  | @snoc names name _ backed ih =>
    have last : name ∈ names ++ [name] := by simp
    refine .snoc (ih (fun name inside => within name (List.mem_append_left _ inside))
      fun name inside => back name (List.mem_append_left _ inside)) fun target refersTo => ?_
    have own := within name last target refersTo
    exact (backed target own).imp_right (back name last target own)

/-- What a name refers to stands at an earlier position, or refers back to it in the end. -/
theorem before_or_back (ordered : DependencyOrder refers names) {i : Nat} {name target : String}
    (stands : names[i]? = some name) (refersTo : refers name target) :
    (∃ j < i, names[j]? = some target) ∨ Relation.TransGen refers target name := by
  induction ordered with
  | nil => simp at stands
  | @snoc names last _ backed ih =>
    rcases Nat.lt_or_ge i names.length with inside | beyond
    · rw [List.getElem?_append_left inside] at stands
      refine (ih stands).imp_left fun found => ?_
      obtain ⟨j, before, same⟩ := found
      exact ⟨j, before, by rw [List.getElem?_append_left (Nat.lt_trans before inside), same]⟩
    · obtain rfl : i = names.length := by
        have bound := (List.getElem?_eq_some_iff.mp stands).1
        rw [List.length_append, List.length_singleton] at bound
        omega
      obtain rfl : last = name := by simpa using stands
      refine (backed target refersTo).imp_left fun listed => ?_
      obtain ⟨j, inside, rfl⟩ := List.getElem_of_mem listed
      exact ⟨j, inside, by rw [List.getElem?_append_left inside, List.getElem?_eq_getElem inside]⟩

end DependencyOrder

/-- A path that starts inside a closed set is one for any relation that agrees there. -/
theorem transGen_of_closed {refers other : String → String → Prop} (inside : String → Prop)
    (closed : ∀ one two, inside one → refers one two → inside two)
    (agrees : ∀ one two, inside one → refers one two → other one two) {first last : String} (begins : inside first)
    (path : Relation.TransGen refers first last) : Relation.TransGen other first last := by
  induction path using Relation.TransGen.head_induction_on with
  | single step => exact .single (agrees _ _ begins step)
  | head step _ ih => exact .head (agrees _ _ begins step) (ih (closed _ _ begins step))

namespace Setting

/-- The definition that stands for a name refers to a type that tables can hold. -/
def Links (setting : Setting) (source : String → Definition) (name target : String) : Prop :=
  ∃ definition, setting.catalog.Uses setting.registry (source name) definition ∧ definition.kind.isNamed = true ∧
    definition.name = target

/-- Each body of the table is the outline of the definition that stands for its name, and the names are in
dependency order. -/
structure Ranks (setting : Setting) (source : String → Definition) (names : String → Prop) (table : Table) : Prop where
  owned : ∀ entry ∈ table, (source entry.1).name = entry.1 ∧ (source entry.1).kind.isNamed = true ∧
    setting.ShowsBody (setting.Settled names) (source entry.1) entry.2
  ordered : DependencyOrder (setting.Links source) (Record.names table)

namespace Ranks

variable {setting : Setting} {source : String → Definition} {names wider : String → Prop} {table : Table}
  {name target : String}

theorem imp (ranks : setting.Ranks source names table) (implies : ∀ name, names name → wider name) :
    setting.Ranks source wider table := by
  refine ⟨fun entry member => ?_, ranks.ordered⟩
  obtain ⟨own, named, shown⟩ := ranks.owned entry member
  exact ⟨own, named, shown.imp fun _ _ _ settled => settled.imp implies⟩

theorem mentioned (ranks : setting.Ranks source names table) (listed : name ∈ Record.names table) {spec : TypeSpec}
    (mentions : (source name).Mentions spec) : ∃ schema, setting.Settled names spec schema := by
  obtain ⟨body, member⟩ := Record.exists_of_mem_names listed
  exact (ranks.owned _ member).2.2.mentioned mentions

theorem listed (ranks : setting.Ranks source names table) (inside : name ∈ Record.names table)
    (links : setting.Links source name target) : names target := by
  obtain ⟨definition, ⟨spec, mentions, denotes⟩, named, rfl⟩ := links
  obtain ⟨schema, settled⟩ := ranks.mentioned inside mentions
  exact settled.listed definition denotes named

/-- Only the definitions that stand for the names of the table matter. -/
theorem congr {other : String → Definition} (ranks : setting.Ranks source (· ∈ Record.names table) table)
    (same : ∀ name ∈ Record.names table, other name = source name) :
    setting.Ranks other (· ∈ Record.names table) table := by
  have agrees (one two : String) (inside : one ∈ Record.names table) :
      setting.Links other one two ↔ setting.Links source one two := by rw [Links, Links, same one inside]
  refine ⟨fun entry member => ?_, ranks.ordered.imp (fun name inside target => (agrees name target inside).mp) ?_⟩
  · rw [same _ (Record.mem_names_of_mem member)]
    exact ranks.owned entry member
  · intro name inside target links path
    exact transGen_of_closed (· ∈ Record.names table) (fun _ _ => ranks.listed)
      (fun one two inside => (agrees one two inside).mpr) (ranks.listed inside links) path

/-- A body that is put in at the end. What it refers to is stored, or leads to it. -/
theorem append {body : Schema} (ranks : setting.Ranks source names table) (own : (source name).name = name)
    (named : (source name).kind.isNamed = true) (shown : setting.ShowsBody (setting.Settled names) (source name) body)
    (leads : ∀ target, names target → target ∈ Record.names table ∨
      (setting.Links source name target → Relation.TransGen (setting.Links source) target name)) :
    setting.Ranks source names (table ++ [(name, body)]) := by
  refine ⟨fun entry member => ?_, ?_⟩
  · rcases List.mem_append.mp member with old | new
    · exact ranks.owned entry old
    · cases List.mem_singleton.mp new
      exact ⟨own, named, shown⟩
  · rw [Record.names_append]
    refine .snoc ranks.ordered fun target links => ?_
    have known : names target := by
      obtain ⟨definition, ⟨spec, mentions, denotes⟩, kindNamed, rfl⟩ := links
      obtain ⟨schema, settled⟩ := shown.mentioned mentions
      exact settled.listed definition denotes kindNamed
    exact (leads target known).imp_right fun path => path links

/-- What stands in the table denotes no more in a catalog that has grown. -/
theorem of_grown {catalog : Catalog} (front : setting.catalog.entries <+: catalog.entries)
    (ranks : setting.Ranks source names table) : (setting.withCatalog catalog).Ranks source names table := by
  refine ⟨fun entry member => ?_, ranks.ordered.imp (fun name inside target links => ?_) fun _ _ _ _ path => ?_⟩
  · obtain ⟨own, named, shown⟩ := ranks.owned entry member
    exact ⟨own, named, shown.imp fun _ _ _ settled => settled.of_grown front⟩
  · obtain ⟨definition, ⟨spec, mentions, kind, later⟩, named, same⟩ := links
    obtain ⟨schema, settled⟩ := ranks.mentioned inside mentions
    obtain ⟨found, classified, -⟩ := classified_of_outline settled.outlined
    cases (Catalog.classify_of_grown front classified).symm.trans later
    exact ⟨definition, ⟨spec, mentions, kind, classified⟩, named, same⟩
  · refine Relation.TransGen.mono (fun one two links => ?_) _ _ path
    obtain ⟨definition, ⟨spec, mentions, denotes⟩, rest⟩ := links
    exact ⟨definition, ⟨spec, mentions, denotes.of_grown front⟩, rest⟩

end Ranks

theorem Appends.kept {setting : Setting} {chain : List Name} {before after : Progress}
    (grown : setting.Appends chain before after) : ∀ name ∈ Record.names before.table, name ∈ Record.names after.table := by
  obtain ⟨added, same, -⟩ := grown
  intro name member
  rw [same, Record.names_append]
  exact List.mem_append_left _ member

/-- A definition that may be met below a chain. All names on the chain lead to it, and an object that was given
comes first. -/
structure Enterable (setting : Setting) (source : String → Definition) (given : Referent) (chain : List Name)
    (definition : Definition) : Prop where
  supplied : .checked definition ∈ setting.catalog.toList ∨ given = .entry (.checked definition)
  led : definition.kind.isNamed = true →
    ∀ name, .text name ∈ chain → Relation.TransGen (setting.Links source) name definition.name
  object : ∀ object, given = .entry (.checked object) → object.kind.isNamed = true →
    definition = object ∨ .text object.name ∈ chain

/-- What is remembered is settled, and the table is in dependency order. What is new in it was supplied. -/
structure InOrder (setting : Setting) (source : String → Definition) (given : Referent) (old : List String)
    (chain : List Name) (progress : Progress) : Prop where
  known : ∀ entry ∈ progress.known, setting.Settled (setting.MayRefer chain progress) entry.1 entry.2
  ranks : setting.Ranks source (setting.MayRefer chain progress) progress.table
  kept : ∀ name ∈ old, name ∈ Record.names progress.table
  supplied : ∀ name ∈ Record.names progress.table, name ∈ old ∨
    (.checked (source name) ∈ setting.catalog.toList ∨ given = .entry (.checked (source name)))

/-- What a call may store under a name that is new: the object that was given, or else the type of the catalog. -/
structure Brings (setting : Setting) (given : Referent) (name : String) (definition : Definition) : Prop where
  supplied : .checked definition ∈ setting.catalog.toList ∨ given = .entry (.checked definition)
  named : definition.kind.isNamed = true
  same : definition.name = name
  object : ∀ object, given = .entry (.checked object) → object.kind.isNamed = true → object.name = name →
    definition = object

def Chooses (setting : Setting) (source : String → Definition) (given : Referent) (old : List String) : Prop :=
  ∀ name ∉ old, ∀ definition, setting.Brings given name definition → source name = definition

variable {setting : Setting} {source : String → Definition} {given : Referent} {old : List String} {chain : List Name}
  {definition : Definition} {progress : Progress}

theorem Brings.unique (built : setting.catalog.OfDefinitions) {name : String} {other : Definition}
    (one : setting.Brings given name definition) (two : setting.Brings given name other) : definition = other := by
  rcases two.supplied with held | same
  · rcases one.supplied with oneHeld | same
    · cases built.eq_of_name oneHeld held (congrArg Name.text (one.same.trans two.same.symm))
      rfl
    · exact (two.object definition same one.named one.same).symm
  · exact one.object other same two.named two.same

variable (setting) in
/-- Beside what stood in a table before, a call chooses what stands for each name. -/
theorem exists_chooses (built : setting.catalog.OfDefinitions) (source : String → Definition) (given : Referent)
    (old : List String) :
    ∃ other : String → Definition, (∀ name ∈ old, other name = source name) ∧ setting.Chooses other given old := by
  have choice (name : String) : ∃ chosen : Definition, (name ∈ old → chosen = source name) ∧
      (name ∉ old → ∀ definition, setting.Brings given name definition → chosen = definition) := by
    by_cases listed : name ∈ old
    · exact ⟨source name, fun _ => rfl, fun absent => absurd listed absent⟩
    · by_cases brought : ∃ definition, setting.Brings given name definition
      · obtain ⟨definition, own⟩ := brought
        exact ⟨definition, fun inside => absurd inside listed, fun _ _ => own.unique built⟩
      · exact ⟨source name, fun _ => rfl, fun _ definition own => absurd ⟨definition, own⟩ brought⟩
  obtain ⟨other, holds⟩ := Classical.skolem.mp choice
  exact ⟨other, fun name => (holds name).1, fun name => (holds name).2⟩

/-- A definition that is entered is the one that stands for its name. -/
theorem Enterable.own (enterable : setting.Enterable source given chain definition)
    (chooses : setting.Chooses source given old) (named : definition.kind.isNamed = true)
    (fresh : .text definition.name ∉ chain) (absent : definition.name ∉ old) :
    source definition.name = definition := by
  refine chooses _ absent definition ⟨enterable.supplied, named, rfl, fun object same named equal => ?_⟩
  exact (enterable.object object same named).resolve_right fun inside => fresh (equal ▸ inside)

/-- What a definition refers to may be met inside it. -/
theorem Enterable.inside (enterable : setting.Enterable source given chain definition)
    (named : definition.kind.isNamed = true) (own : source definition.name = definition) {next : Definition}
    (uses : setting.catalog.Uses setting.registry definition next) :
    setting.Enterable source given (chain ++ [.text definition.name]) next := by
  refine ⟨.inl uses.held, fun nextNamed name member => ?_, fun object same objectNamed => ?_⟩
  · have link : setting.Links source definition.name next.name := ⟨next, own.symm ▸ uses, nextNamed, rfl⟩
    rcases List.mem_append.mp member with outer | last
    · exact .tail (enterable.led named name outer) link
    · cases List.mem_singleton.mp last
      exact .single link
  · refine .inr ?_
    rcases enterable.object object same objectNamed with rfl | outer
    · exact List.mem_append_right _ (List.mem_singleton_self _)
    · exact List.mem_append_left _ outer

/-- What an input refers to may be met as well as the input. -/
theorem Enterable.asked (enterable : setting.Enterable source given [] definition)
    (unnamed : definition.kind.isNamed = false) {next : Definition} (held : .checked next ∈ setting.catalog.toList) :
    setting.Enterable source given [] next := by
  refine ⟨.inl held, fun _ _ inside => absurd inside List.not_mem_nil, fun object same named => ?_⟩
  rcases enterable.object object same named with rfl | inside
  · rw [unnamed] at named
    cases named
  · cases inside

/-- What a type refers to is in the table, or it is on the chain and leads to the type. -/
theorem Ranks.hoist {body : Schema}
    (ranks : setting.Ranks source (setting.MayRefer (chain ++ [.text definition.name]) progress) progress.table)
    (enterable : setting.Enterable source given chain definition) (named : definition.kind.isNamed = true)
    (own : source definition.name = definition) (missing : definition.name ∉ Record.names progress.table)
    (shown : setting.ShowsBody (setting.Settled (setting.MayRefer (chain ++ [.text definition.name]) progress))
      definition body) :
    let after := { progress with table := Record.set progress.table definition.name body }
    setting.Ranks source (setting.MayRefer chain after) after.table := by
  intro after
  have last : setting.Ranks source (setting.MayRefer (chain ++ [.text definition.name]) progress)
      (progress.table ++ [(definition.name, body)]) := by
    refine ranks.append (by rw [own]) (by rw [own]; exact named) (by rw [own]; exact shown)
      fun target refers => refers.2.imp_right fun inside links => ?_
    rcases List.mem_append.mp inside with outer | self
    · exact enterable.led named target outer
    · cases List.mem_singleton.mp self
      exact .single links
  have same : after.table = progress.table ++ [(definition.name, body)] := Record.set_of_notMem missing _
  rw [same]
  exact last.imp (MayRefer.leave (show (Entry.checked definition).name = .text definition.name from rfl))

theorem InOrder.hoist {body : Schema}
    (inOrder : setting.InOrder source given old (chain ++ [.text definition.name]) progress)
    (enterable : setting.Enterable source given chain definition) (named : definition.kind.isNamed = true)
    (own : source definition.name = definition) (missing : definition.name ∉ Record.names progress.table)
    (shown : setting.ShowsBody (setting.Settled (setting.MayRefer (chain ++ [.text definition.name]) progress))
      definition body) :
    setting.InOrder source given old chain { progress with table := Record.set progress.table definition.name body } where
  known entry member :=
    (inOrder.known entry member).imp (MayRefer.leave (show (Entry.checked definition).name = .text definition.name from rfl))
  ranks := inOrder.ranks.hoist enterable named own missing shown
  kept name member := Record.mem_names_set (inOrder.kept name member) ..
  supplied name member := by
    rcases Record.eq_or_mem_names member with rfl | before
    · rw [own]
      exact .inr enterable.supplied
    · exact inOrder.supplied name before

def orderingRules (setting : Setting) (source : String → Definition) (given : Referent) (old : List String)
    (chain : List Name) : Rules where
  invariant := setting.InOrder source given old chain
  growth := setting.Appends chain
  refl := Appends.refl
  trans := .trans

def ordering (setting : Setting) (hoists : setting.hoisting = true) (built : setting.catalog.OfDefinitions)
    (source : String → Definition) (given : Referent) (old : List String)
    (chooses : setting.Chooses source given old) : Discipline setting where
  rules := setting.orderingRules source given old
  admits chain spec := ∀ definition, setting.catalog.Denotes setting.registry spec definition →
    setting.Enterable source given chain definition
  enters chain kind entry := ∃ definition, entry = .checked definition ∧ kind = definition.kind ∧
    setting.Enterable source given chain definition
  shows chain spec schema progress := setting.Settled (setting.MayRefer chain progress) spec schema
  stands chain entry nullable schema progress :=
    ∃ name, entry.name = .text name ∧ setting.MayRefer chain progress name ∧
      setting.widened nullable (.reference setting.dialect.base name) = .ok schema
  stable _ _ _ _ _ grown settled := settled.imp (MayRefer.grow grown.kept)
  silent _ inOrder := ⟨⟨inOrder.known, inOrder.ranks, inOrder.kept, inOrder.supplied⟩, .refl _⟩
  recalled inOrder _ found := Settled.optional.mp (inOrder.known _ (Record.mem_of_lookup found))
  remember inOrder _ settled :=
    ⟨⟨List.forall_mem_cons.mpr ⟨Settled.optional.mpr settled, inOrder.known⟩, inOrder.ranks, inOrder.kept,
      inOrder.supplied⟩, .refl _⟩
  element admitted := admitted
  array := @settles_array setting
  primitive := @settles_primitive setting
  scalar := @settles_scalar setting
  named := @settles_named setting
  entered admitted classified := by
    obtain ⟨definition, rfl⟩ := built.checked (mem_of_classify_eq classified)
    exact ⟨definition, rfl, (classify_checked classified).symm, admitted definition ⟨_, classified⟩⟩
  mentioned named entered new inOrder mentions := by
    obtain ⟨definition, rfl, rfl, enterable⟩ := entered
    have own := enterable.own chooses named new.offChain
      fun listed => new.absent hoists definition.name rfl (inOrder.kept _ listed)
    exact fun next denotes => enterable.inside named own ⟨_, mentions definition rfl, denotes⟩
  asked entered mentions := by
    obtain ⟨definition, rfl, input, enterable⟩ := entered
    exact fun next denotes => enterable.asked (by simp [← input, Kind.isNamed]) denotes.held
  enter inOrder := ⟨fun held member => (inOrder.known held member).imp MayRefer.enter,
    inOrder.ranks.imp MayRefer.enter, inOrder.kept, inOrder.supplied⟩
  inlined inline := by
    rw [hoists] at inline
    cases inline
  referred hoisting _ _ known listed widened := ⟨_, known, ⟨hoisting, known ▸ listed⟩, widened⟩
  hoisted {_ _ _ _ _ _ body} _ kindNamed entered known absent fresh outer inner grown shown := by
    obtain ⟨definition, rfl, rfl, enterable⟩ := entered
    cases known
    have own := enterable.own chooses kindNamed fresh fun listed => absent (outer.kept _ listed)
    have missing := grown.missing absent (List.mem_append_right _ (List.mem_singleton_self _))
    exact ⟨inner.hoist enterable kindNamed own missing shown, grown.hoist rfl body hoists absent fresh⟩

end Setting

end Schemata
