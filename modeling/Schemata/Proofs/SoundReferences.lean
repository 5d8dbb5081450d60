import Schemata.Proofs.MaintainedProperties
import Schemata.Proofs.SoundSchemas

/-! No reference dangles. While a body is written out, it may refer to names that are still on the
chain and not in the table; each of them gets into the table when its own body is done, so at the end
of a call the names that are referred to are all there. -/

namespace Schemata

def Definition.IsReferenceFree : Definition → Prop
  | .scalar _ fragment => (Value.record fragment).hasKey "$ref" = false
  | _ => True

/-- Of an object that nobody has checked nothing is known. -/
def Entry.IsReferenceFree : Entry → Prop
  | .checked definition => definition.IsReferenceFree
  | .handwritten _ => False

def Referent.IsReferenceFree : Referent → Prop
  | .entry (.checked definition) => definition.IsReferenceFree
  | .entry (.handwritten _) | .written _ => True

def Catalog.IsReferenceFree (catalog : Catalog) : Prop := ∀ entry ∈ catalog.toList, entry.IsReferenceFree

def Registry.IsReferenceFree (registry : Registry) : Prop :=
  ∀ name fragment, (name, fragment) ∈ registry.fragments → fragment.hasKey "$ref" = false

theorem Registry.builtins_isReferenceFree : builtins.IsReferenceFree := by
  have all : ∀ entry ∈ builtins.fragments, entry.2.hasKey "$ref" = false := by decide +kernel
  exact fun name fragment member => all (name, fragment) member

def Action.IsReferenceFree : Action → Prop
  | .compile given _ | .compileParameters given _ => given.IsReferenceFree
  | .registerType _ entry => entry.IsReferenceFree
  | .registerPrimitive _ fragment => fragment.hasKey "$ref" = false

section Fragments

variable {base : String} {known : String → Prop}

theorem Definition.IsReferenceFree.gives {definition : Definition} (free : definition.IsReferenceFree) :
    definition.Gives (Schema.Sound base known) := by
  cases definition with
  | scalar => exact Schema.sound_ofRecord free
  | product | sum | map | union | input => trivial

theorem Entry.IsReferenceFree.gives {entry : Entry} (free : entry.IsReferenceFree) :
    entry.Gives (Schema.Sound base known) := by
  cases entry with
  | checked => exact Definition.IsReferenceFree.gives free
  | handwritten => exact free

theorem Referent.IsReferenceFree.gives {given : Referent} (free : given.IsReferenceFree) :
    given.Gives (Schema.Sound base known) := by
  cases given with
  | written => trivial
  | entry entry =>
    cases entry with
    | checked => exact Definition.IsReferenceFree.gives free
    | handwritten => trivial

theorem Action.IsReferenceFree.gives {action : Action} (free : action.IsReferenceFree) :
    action.Gives (Schema.Sound base known) := by
  cases action with
  | compile given | compileParameters given => exact Referent.IsReferenceFree.gives free
  | registerType => exact Entry.IsReferenceFree.gives free
  | registerPrimitive => exact Schema.sound_ofValue free

end Fragments

def Upkeep.sound : Upkeep :=
  .ofClosed (fun dialect => Schema.Sound dialect.base) (fun setting => setting.sound_closed _) (fun _ _ _ _ => .imp)
    fun _ _ _ => Schema.sound_reference

theorem Action.IsReferenceFree.allows {action : Action} (free : action.IsReferenceFree) : Upkeep.sound.Allows action :=
  Upkeep.ofClosed_allows fun _ _ => free.gives

namespace Compiler

/-- Whatever was done with a compiler, what its tables refer to is in the same table, and so is what
the next answer refers to. Without hoisting an answer refers to nothing. -/
theorem references_resolve (catalog : Catalog) (registry : Registry) (mode : Mode) (base? : Option String)
    (history : List Action) (catalogFree : catalog.IsReferenceFree) (registryFree : registry.IsReferenceFree)
    (historyFree : ∀ action ∈ history, action.IsReferenceFree) :
    let compiler := (Compiler.new catalog registry mode base?).after history
    (∀ dialect name body target, (name, body) ∈ compiler.table dialect → body.Refers target →
      ∃ other ∈ Record.names (compiler.table dialect), target = .text (dialect.base ++ other)) ∧
    (∀ action given called compiled, action.IsReferenceFree → action.call? = some (given, called) →
      compiler.answer action = .call (.ok compiled) → ∀ schema ∈ compiled.schemas, ∀ target, schema.Refers target →
        called.isHoisting = true ∧
          ∃ other ∈ Record.names ((compiler.act action).table (compiler.dialect called)),
            target = .text ((compiler.dialect called).base ++ other)) := by
  intro compiler
  have begins : (Compiler.new catalog registry mode base?).Upholds .sound :=
    ⟨fun entry held _ _ => (catalogFree entry held).gives,
      fun name fragment member _ _ => Schema.sound_ofValue (registryFree name fragment member),
      by simp [new, Compiler.table]⟩
  have upholds : compiler.Upholds .sound := begins.after fun action member => (historyFree action member).allows
  constructor
  · intro dialect name body target member refers
    obtain ⟨other, listed, same⟩ := (upholds.tables dialect _ member).property.refers refers
    exact ⟨other, listed, same⟩
  · intro action given called compiled free call answered schema member target refers
    obtain ⟨succeeded, same⟩ := answered_call call answered
    obtain ⟨other, ⟨hoisting, listed⟩, written⟩ :=
      ((upholds.compile (free.allows.accepts call) succeeded).2 schema member).refers refers
    exact ⟨hoisting, other, same ▸ listed, written⟩

/-- A type that refers to itself, registered and compiled; it is then compiled again in a list. -/
theorem references_resolve_of_self :
    let node : Definition := .product "node" [⟨"next", .text "node?", none, none, none⟩] none none "application/json"
    let history : List Action :=
      [.registerType none (.checked node), .compile (.written (.text "node")) .refSchema]
    let compiler := (Compiler.new .empty .builtins .refSchema none).after history
    let again : Action := .compile (.written (.text "[node]")) .refSchema
    Record.names (compiler.table (compiler.dialect .refSchema)) = ["node"] ∧
      (compiler.answer again).isFailure = false ∧
      (∀ dialect name body target, (name, body) ∈ compiler.table dialect → body.Refers target →
        ∃ other ∈ Record.names (compiler.table dialect), target = .text (dialect.base ++ other)) ∧
      ∀ compiled, compiler.answer again = .call (.ok compiled) → ∀ schema ∈ compiled.schemas, ∀ target,
        schema.Refers target → ∃ other ∈ Record.names ((compiler.act again).table (compiler.dialect .refSchema)),
          target = .text ((compiler.dialect .refSchema).base ++ other) := by
  intro node history compiler again
  have resolve := references_resolve .empty .builtins .refSchema none history nofun Registry.builtins_isReferenceFree
    (by simp [history, node, Action.IsReferenceFree, Entry.IsReferenceFree, Definition.IsReferenceFree,
      Referent.IsReferenceFree])
  refine ⟨by decide +kernel, by decide +kernel, resolve.1, fun compiled answered schema member target refers => ?_⟩
  exact (resolve.2 again _ .refSchema compiled trivial rfl answered schema member target refers).2

end Compiler

end Schemata
