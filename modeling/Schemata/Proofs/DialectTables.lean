import Schemata.Proofs.KeywordLaws
import Schemata.Proofs.MaintainedProperties

/-! One table for every dialect, one dialect in every table. Where null is admitted by a flag, no type is a
list; elsewhere there is no flag; and references start with the base of the dialect. Fragments that leave
all of this alone fit every dialect, so what was compiled for one never shows in another. -/

namespace Schemata

structure Dialect.Allows (dialect : Dialect) (key : String) (held : Value) : Prop where
  single : dialect.flagged = true → key = "type" → held.items? = none
  unflagged : dialect.flagged = false → key ≠ "nullable"
  based : key = "$ref" → ∃ name, held = .text (dialect.base ++ name)

structure Neutral (key : String) (held : Value) : Prop where
  single : key = "type" → held.items? = none
  unflagged : key ≠ "nullable"
  unreferring : key ≠ "$ref"

theorem Neutral.allows {key : String} {held : Value} (neutral : Neutral key held) (dialect : Dialect) :
    dialect.Allows key held :=
  ⟨fun _ => neutral.single, fun _ => neutral.unflagged, fun reference => absurd reference neutral.unreferring⟩

theorem neutral_of_notMem {key : String} {held : Value} (other : key ∉ ["type", "nullable", "$ref"]) :
    Neutral key held := by
  simp only [List.mem_cons, List.not_mem_nil, or_false, not_or] at other
  exact ⟨fun type => absurd type other.1, other.2.1, other.2.2⟩

theorem neutral_type (name : String) : Neutral "type" (.text name) := ⟨fun _ => rfl, by simp, by simp⟩

/-- All that the compiler writes itself fits the dialect it is written for. -/
theorem Dialect.allows_admits (dialect : Dialect) (seating : Seating) : dialect.Admits seating dialect.Allows where
  type name := (neutral_type name).allows dialect
  plain {key} _ member := by
    simp only [List.mem_cons, List.not_mem_nil, or_false] at member
    rcases member with rfl | rfl | rfl | rfl | rfl <;> exact (neutral_of_notMem (by simp)).allows dialect
  seat {key _} _ seat := by
    refine (neutral_of_notMem fun own => ?_).allows dialect
    rw [seating.data key (List.mem_append_left _ own)] at seat
    cases seat
  reference name := ⟨by simp, by simp, fun _ => ⟨name, rfl⟩⟩
  flag flagged := ⟨by simp, by simp [flagged], by simp⟩
  widened unflagged _ := ⟨by simp [unflagged], by simp, by simp⟩

/-- A schema that keeps to a dialect wherever it is read. -/
abbrev Schema.Speaks (seating : Seating) (dialect : Dialect) (schema : Schema) : Prop :=
  schema.Obeys seating dialect.Allows

abbrev Schema.IsNeutral (seating : Seating) (schema : Schema) : Prop := schema.Obeys seating Neutral

theorem Schema.IsNeutral.speaks {seating : Seating} (dialect : Dialect) (schema : Schema)
    (neutral : schema.IsNeutral seating) : schema.Speaks seating dialect :=
  neutral.imp fun _ _ neutral => neutral.allows dialect

theorem Setting.closed_speaks (setting : Setting) (seating : Seating) :
    setting.Closed (Schema.Speaks seating setting.dialect) :=
  (setting.dialect.allows_admits seating).closed

theorem Schema.speaks_reference (seating : Seating) (dialect : Dialect) (name : String) :
    (reference dialect.base name).Speaks seating dialect :=
  (dialect.allows_admits seating).writes.obeys_reference name

def Upkeep.speaking (seating : Seating) : Upkeep :=
  .ofClosed (fun dialect _ => Schema.Speaks seating dialect) (fun setting _ => setting.closed_speaks seating)
    (fun _ _ _ _ speaks _ => speaks) fun _ _ _ _ => Schema.speaks_reference seating _ _

theorem Registry.builtins_isNeutral (seating : Seating) : builtins.Gives (Schema.IsNeutral seating) := by
  suffices all : ∀ entry ∈ builtins.fragments, (Schema.ofValue entry.2).IsNeutral seating from
    fun name fragment member => all (name, fragment) member
  simp [builtins, Schema.obeys_ofValue, neutral_type, neutral_of_notMem]

namespace Compiler

variable {compiler : Compiler} {given : Referent} {mode : Mode}

/-- A call leaves the tables of other dialects alone, whether or not it succeeds. -/
theorem other_tables_of_call {action : Action} (call : action.call? = some (given, mode)) {dialect : Dialect}
    (other : dialect ≠ compiler.dialect mode) : (compiler.act action).table dialect = compiler.table dialect := by
  have taken := compiler.step action
  generalize compiler.act action = after at taken ⊢
  generalize compiler.answer action = answer at taken
  cases taken with
  | failed | refused => rfl
  | registered | primitive => cases call
  | answered again succeeded =>
    cases call.symm.trans again
    exact (compile_appends succeeded).others dialect other

/-- Whatever was compiled before and in which modes, the schemas in the table of a dialect keep to that
dialect, and a call keeps to the dialect of its mode and only touches the table of that dialect. This is
so for every reader, if what was given fits all dialects for that reader. -/
theorem dialects_apart (seating : Seating) (catalog : Catalog) (registry : Registry) (mode : Mode)
    (base? : Option String) (history : List Action) (catalogNeutral : catalog.Gives (Schema.IsNeutral seating))
    (registryNeutral : registry.Gives (Schema.IsNeutral seating))
    (historyNeutral : ∀ action ∈ history, action.Gives (Schema.IsNeutral seating)) :
    let compiler := (new catalog registry mode base?).after history
    (∀ dialect name body, (name, body) ∈ compiler.table dialect → body.Speaks seating dialect) ∧
    (∀ action given called, action.Gives (Schema.IsNeutral seating) → action.call? = some (given, called) →
      (∀ dialect, dialect ≠ .of base? called →
        (compiler.act action).table dialect = compiler.table dialect) ∧
      ∀ compiled, compiler.answer action = .call (.ok compiled) →
        ∀ schema ∈ compiled.schemas, schema.Speaks seating (.of base? called)) := by
  intro compiler
  have allows {action : Action} (neutral : action.Gives (Schema.IsNeutral seating)) :
      (Upkeep.speaking seating).Allows action :=
    Upkeep.ofClosed_allows fun dialect _ => neutral.imp (Schema.IsNeutral.speaks dialect)
  have begins : (new catalog registry mode base?).Upholds (.speaking seating) :=
    ⟨fun entry held dialect _ => (catalogNeutral entry held).imp (Schema.IsNeutral.speaks dialect),
      fun name fragment member dialect _ => (registryNeutral name fragment member).speaks dialect, fun _ _ => nofun⟩
  have upholds : compiler.Upholds (.speaking seating) := begins.after fun action member =>
    allows (historyNeutral action member)
  have own (called : Mode) : compiler.dialect called = .of base? called := by
    rw [Compiler.dialect, after_base?]
    rfl
  refine ⟨fun dialect name body member => (upholds.tables dialect _ member).property, ?_⟩
  intro action given called neutral call
  rw [← own]
  refine ⟨fun dialect => other_tables_of_call call, fun compiled answered => ?_⟩
  exact (upholds.compile ((allows neutral).accepts call) (answered_call call answered).1).2

/-- A type that may be null in three ways, hoisted for two dialects and then asked for in a third. -/
theorem dialects_apart_of_node :
    let node : Definition := .product "node"
      [⟨"next", .text "node?", none, none, none⟩, ⟨"size", .text "integer?", none, none, none⟩,
        ⟨"mark", .text "anything?", none, none, none⟩] none none "application/json"
    let flagged := Mode.openApi.union .refSchema
    let unflagged := Mode.jsonSchema.union .refSchema
    let later := flagged.union .openApi31
    let history : List Action :=
      [.registerType none (.checked (.scalar "anything" [("title", .text "anything")])),
        .registerType none (.checked node),
        .compile (.written (.text "node")) flagged, .compile (.written (.text "node")) unflagged]
    let compiler := (new .empty .builtins flagged none).after history
    let again : Action := .compile (.written (.text "[node?]")) later
    Record.names (compiler.table (.of none flagged)) = ["node"] ∧
      Record.names (compiler.table (.of none unflagged)) = ["node"] ∧
      Record.names (compiler.table (.of none later)) = [] ∧ (compiler.answer again).isFailure = false ∧
      (∀ dialect name body, (name, body) ∈ compiler.table dialect → body.Speaks .usual dialect) ∧
      (∀ dialect, dialect ≠ .of none later → (compiler.act again).table dialect = compiler.table dialect) ∧
      ∀ compiled, compiler.answer again = .call (.ok compiled) →
        ∀ schema ∈ compiled.schemas, schema.Speaks .usual (.of none later) := by
  intro node flagged unflagged later history compiler again
  have anything : (Schema.ofRecord [("title", .text "anything")]).IsNeutral .usual := by
    simp [Schema.obeys_ofRecord, neutral_of_notMem]
  have apart := dialects_apart .usual .empty .builtins flagged none history nofun (Registry.builtins_isNeutral _)
    (by simp [history, node, Action.Gives, Entry.Gives, Definition.Gives, Referent.Gives, anything])
  exact ⟨by decide +kernel, by decide +kernel, by decide +kernel, by decide +kernel, apart.1,
    apart.2 again _ later trivial rfl⟩

end Compiler

end Schemata
