import Schemata.Proofs.DependencyOrder
import Schemata.Proofs.EmittedReferences
import Mathlib

/-! Tables stay in dependency order over any session. The references of a body are found among those of its
definition, so a reference that points further on in a table, or at its own place, belongs to a circle. -/

namespace Schemata

namespace Setting

variable {setting : Setting} {source : String → Definition}

/-- An outline only makes references to the type that it names. -/
theorem points_of_outline (built : setting.catalog.OfDefinitions) {spec : TypeSpec} {schema : Schema}
    (outlined : setting.outline? spec = some schema) : schema.Points setting.dialect.base fun name =>
      ∃ definition, setting.catalog.Denotes setting.registry spec definition ∧ definition.kind.isNamed = true ∧
        definition.name = name := by
  have widened {known : String → Prop} {nullable : Bool} {plain schema : Schema}
      (points : plain.Points setting.dialect.base known) (done : setting.widened nullable plain = .ok schema) :
      schema.Points setting.dialect.base known := (setting.points_closed _ known).widened points done
  induction spec generalizing schema with
  | array element required nullable ih =>
    obtain ⟨items, inner, done⟩ := outline?_array.mp outlined
    exact widened ((setting.points_closed _ _).array (ih inner)) done
  | named name required nullable =>
    cases checkedOutline built outlined with
    | fragment supplies done => exact widened (Schema.points_ofValue _) done
    | @type definition named classified done =>
      refine widened ?_ done
      simpa [Schema.reference] using ⟨definition, ⟨_, classified⟩, named, rfl⟩

/-- What a body of the table refers to is linked with its name. -/
theorem Ranks.points (built : setting.catalog.OfDefinitions) {names : String → Prop} {table : Table} {name : String}
    {body : Schema} (ranks : setting.Ranks source names table) (member : (name, body) ∈ table) :
    body.Points setting.dialect.base (setting.Links source name) := by
  obtain ⟨-, -, shown⟩ := ranks.owned _ member
  have points : setting.ShowsEntry (fun _ => Schema.Points setting.dialect.base (setting.Links source name))
      (source name).kind (.checked (source name)) body := by
    refine shown.imp fun spec schema mentions settled => ?_
    refine (points_of_outline built settled.outlined).imp fun target found => ?_
    obtain ⟨definition, denotes, rest⟩ := found
    exact ⟨definition, ⟨spec, mentions, denotes⟩, rest⟩
  exact points.points

end Setting

/-- The body at a position of a table, under a name, makes a reference to another one. -/
def Table.EmitsAt (table : Table) (i : Nat) (name target : String) : Prop :=
  ∃ body key base, table[i]? = some (name, body) ∧ Schema.Emits body key base target

/-- Among hoisted definitions, one with a name refers to a type of another name that tables can hold. -/
def Catalog.Refers (catalog : Catalog) (registry : Registry) (hoisted : List Definition) (name target : String) : Prop :=
  ∃ definition ∈ hoisted, definition.name = name ∧
    ∃ other, catalog.Uses registry definition other ∧ other.kind.isNamed = true ∧ other.name = target

namespace Compiler

structure Ranked (compiler : Compiler) (calls : List (Referent × Mode)) : Prop where
  built : compiler.catalog.OfDefinitions
  ranks : ∀ dialect, ∃ source : String → Definition,
    (compiler.hoisting dialect).Ranks source (· ∈ Record.names (compiler.table dialect)) (compiler.table dialect) ∧
      ∀ name ∈ Record.names (compiler.table dialect), compiler.Source calls dialect (source name)

variable {compiler : Compiler} {given : Referent} {mode : Mode} {calls : List (Referent × Mode)} {compiled : Compiled}

theorem new_ranked {catalog : Catalog} (built : catalog.OfDefinitions) (registry : Registry) (mode : Mode)
    (base? : Option String) : (new catalog registry mode base?).Ranked [] :=
  ⟨built, fun _ => ⟨fun name => .sum name [], ⟨nofun, .nil⟩, nofun⟩⟩

/-- A call that hoists leaves its table in dependency order. -/
private theorem compile_ranks (built : compiler.catalog.OfDefinitions) (hoists : mode.isHoisting = true)
    {source : String → Definition}
    (ranks : (compiler.hoisting (compiler.dialect mode)).Ranks source
      (· ∈ Record.names (compiler.table (compiler.dialect mode))) (compiler.table (compiler.dialect mode)))
    (answered : (compiler.compile given mode).outcome = .ok compiled) :
    ∃ table other, (compiler.compile given mode).compiler = compiler.setTable (compiler.dialect mode) table ∧
      (compiler.hoisting (compiler.dialect mode)).Ranks other (· ∈ Record.names table) table ∧
      (∀ name ∈ Record.names (compiler.table (compiler.dialect mode)), other name = source name) ∧
      ∀ name ∈ Record.names table, name ∈ Record.names (compiler.table (compiler.dialect mode)) ∨
        (.checked (other name) ∈ compiler.catalog.toList ∨ given = .entry (.checked (other name))) := by
  obtain ⟨progress, run, same⟩ := compile_ok answered
  rw [setting_eq_hoisting hoists] at run
  obtain ⟨other, agrees, chooses⟩ := (compiler.hoisting (compiler.dialect mode)).exists_chooses built source given
    (Record.names (compiler.table (compiler.dialect mode)))
  let discipline := (compiler.hoisting (compiler.dialect mode)).ordering rfl built other given _ chooses
  have received : discipline.Receives given := by
    cases given with
    | written value =>
      intro spec _ definition denotes
      refine ⟨.inl denotes.held, fun _ _ inside => absurd inside List.not_mem_nil, fun object same => ?_⟩
      cases same
    | entry entry =>
      cases entry with
      | handwritten => trivial
      | checked definition =>
        refine ⟨definition, rfl, rfl, .inr rfl, fun _ _ inside => absurd inside List.not_mem_nil,
          fun object same _ => ?_⟩
        cases same
        exact .inl rfl
  obtain ⟨inOrder, -, -⟩ := discipline.ensures_ofReferent given received (compiler.start given mode) compiled progress
    ⟨fun _ member => absurd member List.not_mem_nil, (ranks.congr agrees).imp fun _ => .intro rfl ∘ .inl,
      fun _ => id, fun _ => .inl⟩ run
  exact ⟨progress.table, other, same, inOrder.ranks.imp fun name refers => refers.settled.2, agrees, inOrder.supplied⟩

private def Ranking (compiler : Compiler) (calls : List (Referent × Mode)) (dialect : Dialect) (table : Table) : Prop :=
  ∃ source : String → Definition,
    (compiler.hoisting dialect).Ranks source (· ∈ Record.names table) table ∧
      ∀ name ∈ Record.names table, compiler.Source calls dialect (source name)

private theorem Ranked.compile (ranked : compiler.Ranked calls)
    (answered : (compiler.compile given mode).outcome = .ok compiled) :
    (compiler.compile given mode).compiler.Ranked (calls ++ [(given, mode)]) := by
  have before (dialect : Dialect) :
      compiler.Ranking (calls ++ [(given, mode)]) dialect (compiler.table dialect) := by
    obtain ⟨source, ranks, sources⟩ := ranked.ranks dialect
    exact ⟨source, ranks, fun name listed => (sources name listed).later _⟩
  have after := compile_tables answered before fun hoists => by
    obtain ⟨source, ranks, sources⟩ := before (compiler.dialect mode)
    obtain ⟨table, other, same, later, agrees, supplied⟩ := compile_ranks ranked.built hoists ranks answered
    rw [same, table_setTable_self]
    refine ⟨other, later, fun name listed => ?_⟩
    rcases supplied name listed with old | held | object
    · rw [agrees name old]
      exact sources name old
    · exact .inl held
    · exact .inr ⟨mode, by simp [← object], hoists, rfl⟩
  obtain ⟨progress, -, same⟩ := compile_ok answered
  rw [same] at after ⊢
  exact ⟨ranked.built, after⟩

theorem Ranked.after (ranked : compiler.Ranked calls) {actions : List Action}
    (checked : ∀ action ∈ actions, action.IsChecked) :
    (compiler.after actions).Ranked (calls ++ compiler.successes actions) := by
  refine checked_induction Ranked.compile (fun {_ _ _ _ catalog} ranked accepted => ?_) ranked checked
  obtain ⟨chosen, name, -, -, -, grown, -⟩ := Catalog.register_ok accepted
  have front : _ <+: catalog.entries := ⟨_, grown.symm⟩
  refine ⟨.register ranked.built accepted, fun dialect => ?_⟩
  obtain ⟨source, ranks, sources⟩ := ranked.ranks dialect
  exact ⟨source, ranks.of_grown front, fun name listed =>
    (sources name listed).imp_left fun held => (front.map Prod.snd).subset held⟩

section Ranked

variable {dialect : Dialect} {source : String → Definition} {table : Table}
  (ranks : (compiler.hoisting dialect).Ranks source (· ∈ Record.names table) table)

include ranks

private theorem source_name {name : String} (listed : name ∈ Record.names table) : (source name).name = name := by
  obtain ⟨body, member⟩ := Record.exists_of_mem_names listed
  exact (ranks.owned _ member).1

/-- The definitions of the names of a table refer to each other as their names are linked. -/
private theorem refers_iff {name target : String} :
    compiler.catalog.Refers compiler.registry ((Record.names table).map source) name target ↔
      name ∈ Record.names table ∧ (compiler.hoisting dialect).Links source name target := by
  constructor
  · intro refers
    obtain ⟨definition, member, same, links⟩ := refers
    obtain ⟨listed, inside, rfl⟩ := List.mem_map.mp member
    obtain rfl : listed = name := (source_name ranks inside).symm.trans same
    exact ⟨inside, links⟩
  · intro both
    obtain ⟨inside, links⟩ := both
    exact ⟨source name, List.mem_map_of_mem inside, source_name ranks inside, links⟩

/-- What a body refers to stands before the body, or it refers back. -/
private theorem before_or_back (built : compiler.catalog.OfDefinitions) {i : Nat} {name target : String}
    (emits : table.EmitsAt i name target) :
    let refers := compiler.catalog.Refers compiler.registry ((Record.names table).map source)
    refers name target ∧ target ∈ Record.names table ∧
      ((∃ j < i, (Record.names table)[j]? = some target) ∨ Relation.TransGen refers target name) := by
  intro refers
  obtain ⟨body, key, base, stands, emits⟩ := emits
  have member := List.mem_of_getElem? stands
  have inside : name ∈ Record.names table := Record.mem_names_of_mem member
  obtain ⟨-, -, links⟩ := ranks.points built member key base target emits
  have listed : target ∈ Record.names table := ranks.listed inside links
  have position : (Record.names table)[i]? = some name := by simp [Record.names, stands]
  refine ⟨(refers_iff ranks).mpr ⟨inside, links⟩, listed, ?_⟩
  refine (ranks.ordered.before_or_back position links).imp_right fun path => ?_
  exact transGen_of_closed (· ∈ Record.names table) (fun _ _ => ranks.listed)
    (fun one two inside links => (refers_iff ranks).mpr ⟨inside, links⟩) listed path

end Ranked

/-- Tables are in dependency order. For each table there are the definitions that were hoisted into it, in its
order. If a body makes a reference to the name at its own or a later position, the definition there refers back,
directly or through other hoisted definitions. If none of them leads to itself, every body refers only to entries
before it. -/
theorem tables_in_dependency_order (catalog : Catalog) (registry : Registry) (mode : Mode) (base? : Option String)
    (history : List Action) (built : catalog.OfDefinitions) (checked : ∀ action ∈ history, action.IsChecked) :
    let begun := new catalog registry mode base?
    let compiler := begun.after history
    ∀ dialect, ∃ hoisted : List Definition,
      let table := compiler.table dialect
      let refers := compiler.catalog.Refers compiler.registry hoisted
      hoisted.map Definition.name = Record.names table ∧
      (∀ definition ∈ hoisted, definition.kind.isNamed = true ∧
        compiler.Source (begun.successes history) dialect definition ∧
        ∃ body, Record.find? table definition.name = some body ∧
          (compiler.hoisting dialect).bodyOutline? definition = some body) ∧
      (∀ i name target, table.EmitsAt i name target → refers name target ∧ target ∈ Record.names table ∧
        ∀ j, (Record.names table)[j]? = some target → i ≤ j → Relation.TransGen refers target name) ∧
      ((∀ name, ¬ Relation.TransGen refers name name) →
        ∀ i name target, table.EmitsAt i name target → ∃ j < i, (Record.names table)[j]? = some target) := by
  intro begun compiler dialect
  have ranked : compiler.Ranked (begun.successes history) := (new_ranked built registry mode base?).after checked
  have unique : (Record.names (compiler.table dialect)).Nodup :=
    (after_appends begun history).2 (new_unrepeated catalog registry mode base?) dialect
  obtain ⟨source, ranks, sources⟩ := ranked.ranks dialect
  refine ⟨(Record.names (compiler.table dialect)).map source, ?_, fun definition hoisted => ?_, fun i name target emits => ?_,
    fun acyclic i name target emits => ?_⟩
  · refine (List.map_map ..).trans ((List.map_congr_left fun name listed => ?_).trans (List.map_id _))
    exact source_name ranks listed
  · obtain ⟨name, listed, rfl⟩ := List.mem_map.mp hoisted
    obtain ⟨body, member⟩ := Record.exists_of_mem_names listed
    obtain ⟨own, named, shown⟩ := ranks.owned _ member
    refine ⟨named, sources name listed, body, own.symm ▸ Record.find?_of_mem unique member, ?_⟩
    exact Setting.bodyOutline?_eq_some (shown.imp fun _ _ _ settled => settled.outlined)
  · obtain ⟨direct, listed, ⟨k, before, same⟩ | back⟩ := before_or_back ranks ranked.built emits
    · refine ⟨direct, listed, fun j stands later => ?_⟩
      -- no name stands at two positions
      have bound := (List.getElem?_eq_some_iff.mp same).1
      have equal := (List.getElem?_inj bound unique).mp (same.trans stands.symm)
      exact absurd later (by omega)
    · exact ⟨direct, listed, fun _ _ _ => back⟩
  · obtain ⟨direct, -, before | back⟩ := before_or_back ranks ranked.built emits
    · exact before
    · exact absurd (Relation.TransGen.head direct back) (acyclic name)

/-- A tree refers to the node that was entered before it and is stored after it. -/
theorem tables_in_dependency_order_of_node :
    let leaf : Definition := .sum "Leaf" ["green"]
    let tree : Definition := .product "Tree" [⟨"root", .text "node?", none, none, none⟩] none none "application/json"
    let node : Definition := .product "Node"
      [⟨"leaf", .text "leaf", none, none, none⟩, ⟨"trees", .text "[tree]", none, none, none⟩] none none "application/json"
    let history : List Action :=
      [.registerType (some "leaf") (.checked leaf), .registerType (some "tree") (.checked tree),
        .registerType (some "node") (.checked node), .compile (.entry (.checked node)) .refSchema]
    let begun := new .empty .builtins .refSchema none
    let compiler := begun.after history
    let dialect := compiler.dialect .refSchema
    Record.names (compiler.table dialect) = ["Leaf", "Tree", "Node"] ∧
      (compiler.table dialect).EmitsAt 1 "Tree" "Node" ∧
      ∃ hoisted : List Definition, hoisted.map Definition.name = ["Leaf", "Tree", "Node"] ∧
        Relation.TransGen (compiler.catalog.Refers compiler.registry hoisted) "Node" "Tree" := by
  intro leaf tree node history begun compiler dialect
  have names : Record.names (compiler.table dialect) = ["Leaf", "Tree", "Node"] := by decide +kernel
  let emitted : Schema.Parts := [("$ref", .reference "#/definitions/" "Node")]
  let widened : Schema.Parts := [("oneOf", .schemas [.keywords emitted, .null])]
  let parts : Schema.Parts :=
    [("type", .data (.text "object")), ("properties", .members [("root", .keywords widened)])]
  have body : (compiler.table dialect)[1]? = some ("Tree", .keywords parts) := by
    simp only [compiler, dialect, begun, history, node, tree, leaf, parts, widened, emitted]
    cbv
  have inside : (Schema.keywords emitted).Inside (.keywords parts) := by
    have lower : (Schema.keywords emitted).Inside (.keywords widened) :=
      .keyword (List.mem_singleton_self _) List.mem_cons_self (.self _)
    have upper : ("properties", .members [("root", .keywords widened)]) ∈ parts := by simp [parts]
    exact .keyword upper (by simp [Part.held]) lower
  have emits : (compiler.table dialect).EmitsAt 1 "Tree" "Node" :=
    ⟨_, "$ref", "#/definitions/", body, emitted, inside, List.mem_singleton_self _⟩
  obtain ⟨hoisted, aligned, -, circles, -⟩ := tables_in_dependency_order .empty .builtins .refSchema none history .empty
    (by simp [history, Action.IsChecked]) dialect
  refine ⟨names, emits, hoisted, aligned.trans names, ?_⟩
  exact (circles 1 "Tree" "Node" emits).2.2 2 (by rw [names]; rfl) (by decide)

end Compiler

end Schemata
