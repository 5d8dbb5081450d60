import Schemata.Proofs.SettledReferences

/-! What a compiler did before never shows in its answers. A call answers as it would on a compiler
that has compiled nothing yet, and adds to its table just the entries of that compiler which the table
does not have. So the order of calls only decides the order of entries. -/

namespace Schemata

namespace Compiler

variable {compiler : Compiler} {given : Referent} {mode : Mode} {calls : List (Referent × Mode)}

/-- A compiler that has compiled nothing yet, over the same types. -/
def renewed (compiler : Compiler) : Compiler :=
  .new compiler.catalog compiler.registry compiler.mode compiler.base?

theorem near_start (compiler : Compiler) (given : Referent) (mode : Mode) :
    (compiler.setting mode).Near (compiler.table (compiler.dialect mode)) (compiler.start given mode)
      (compiler.renewed.start given mode) := by
  refine ⟨nofun, nofun, ?_, fun _ _ => rfl⟩
  exact Record.beyond_self _

theorem compile_renewed (mode : Mode) (tracks : compiler.Tracks calls)
    (held : ∀ entry, given = .entry entry → entry ∈ compiler.catalog.toList) :
    (compiler.compile given mode).outcome = (compiler.renewed.compile given mode).outcome ∧
      ∀ compiled, (compiler.compile given mode).outcome = .ok compiled →
        (compiler.compile given mode).compiler.table (compiler.dialect mode) =
          compiler.table (compiler.dialect mode) ++ Record.beyond (compiler.table (compiler.dialect mode))
            ((compiler.renewed.compile given mode).compiler.table (compiler.dialect mode)) := by
  have stored : (compiler.setting mode).hoisting = true → ∀ entry ∈ compiler.table (compiler.dialect mode),
      (compiler.setting mode).Stores (· ∈ Record.names (compiler.table (compiler.dialect mode))) entry.1 entry.2 := by
    intro hoists
    rw [setting_eq_hoisting hoists]
    exact tracks.stored _
  have alike := Setting.respects_ofReferent tracks.built stored held _ _ (near_start compiler given mode)
  have here := compile_eq compiler given mode
  have there := compile_eq compiler.renewed given mode
  rw [show compiler.renewed.setting mode = compiler.setting mode from rfl] at there
  generalize (Compiled.ofReferent (compiler.setting mode) given).run (compiler.start given mode) = first at *
  generalize (Compiled.ofReferent (compiler.setting mode) given).run (compiler.renewed.start given mode) = second at *
  cases alike with
  | error =>
    rw [here, there]
    exact ⟨rfl, nofun⟩
  | @ok compiled progress other near =>
    have answered : (compiler.compile given mode).outcome = .ok compiled := by rw [here]
    obtain ⟨added, grown, -, new⟩ := (compile_appends answered).appended
    rw [here, there]
    rw [here] at grown
    refine ⟨rfl, fun _ _ => ?_⟩
    have seen : Record.beyond (compiler.table (compiler.dialect mode)) progress.table = added := by
      rw [table_setTable_self] at grown
      rw [grown, Record.beyond_append, Record.beyond_self, Record.beyond_of_disjoint new, List.nil_append]
    have fresh : (compiler.renewed.setTable (compiler.renewed.dialect mode) other.table).table (compiler.dialect mode) =
        other.table := table_setTable_self ..
    rw [grown, fresh, ← near.2.2.1, seen]

/-- A call answers what it answers on a compiler that has compiled nothing yet. -/
theorem answer_renewed (tracks : compiler.Tracks calls) {action : Action} (admitted : compiler.Admits action)
    (call : action.call? = some (given, mode)) :
    compiler.answer action = compiler.renewed.answer action ∧
      ∀ compiled, compiler.answer action = .call (.ok compiled) →
        (compiler.act action).table (compiler.dialect mode) =
          compiler.table (compiler.dialect mode) ++ Record.beyond (compiler.table (compiler.dialect mode))
            ((compiler.renewed.act action).table (compiler.dialect mode)) := by
  have held := admitted.referent call
  obtain ⟨outcome, tables⟩ := compile_renewed mode tracks held
  have same : compiler.answer action = compiler.renewed.answer action := by
    cases action with
    | registerType | registerPrimitive => cases call
    | compile =>
      cases call
      exact congrArg Answer.call outcome
    | compileParameters =>
      cases call
      simp only [answer, compileParameters]
      rw [show compiler.renewed.requireInput given = compiler.requireInput given from rfl]
      split
      next => rfl
      next => exact congrArg Answer.call outcome
  refine ⟨same, fun compiled answered => ?_⟩
  obtain ⟨succeeded, here⟩ := answered_call call answered
  obtain ⟨-, there⟩ := answered_call call (same ▸ answered)
  rw [here, there]
  exact tables compiled succeeded

theorem after_fixed {actions : List Action} (orderly : compiler.Orderly actions) :
    ∃ catalog tables, compiler.after actions = { compiler with catalog, tables } := by
  induction actions generalizing compiler with
  | nil => exact ⟨_, _, rfl⟩
  | cons action rest ih =>
    have own : ∃ catalog tables, compiler.act action = { compiler with catalog, tables } := by
      have admitted := orderly.1
      have taken := compiler.step action
      generalize compiler.act action = after at taken ⊢
      generalize compiler.answer action = answer at taken
      cases taken with
      | failed | refused | registered => exact ⟨_, _, rfl⟩
      | primitive => exact admitted.elim
      | answered call succeeded =>
        obtain ⟨progress, -, same⟩ := compile_ok succeeded
        exact ⟨_, _, same⟩
    obtain ⟨catalog, tables, later⟩ := ih orderly.2
    obtain ⟨_, _, first⟩ := own
    exact ⟨catalog, tables, later.trans (by rw [first])⟩

theorem renewed_after {actions : List Action} (orderly : compiler.Orderly actions) :
    (compiler.after actions).renewed = .new (compiler.after actions).catalog compiler.registry compiler.mode
      compiler.base? := by
  obtain ⟨catalog, tables, same⟩ := after_fixed orderly
  rw [renewed, same]

theorem catalog_of_call {action : Action} (call : action.call? = some (given, mode)) :
    (compiler.act action).catalog = compiler.catalog := by
  have taken := compiler.step action
  generalize compiler.act action = after at taken ⊢
  generalize compiler.answer action = answer at taken
  cases taken with
  | failed | refused => rfl
  | registered | primitive => cases call
  | answered _ succeeded =>
    obtain ⟨progress, -, same⟩ := compile_ok succeeded
    rw [same]
    rfl

theorem success?_of_call {action : Action} (call : action.call? = some (given, mode))
    (succeeds : (compiler.answer action).isFailure = false) : compiler.success? action = some (given, mode) := by
  unfold success?
  cases answered : compiler.answer action with
  | registration outcome =>
    cases action with
    | compile | compileParameters => cases answered
    | registerType | registerPrimitive => cases call
  | call outcome =>
    cases outcome with
    | ok compiled => exact call
    | error error => rw [answered] at succeeds; cases succeeds

/-- The calls and the types determine the tables, but for the order. -/
theorem Tracks.perm {second : Compiler} {others : List (Referent × Mode)} (tracks : compiler.Tracks calls)
    (tracksToo : second.Tracks others) (unique : compiler.Unrepeated) (uniqueToo : second.Unrepeated)
    (catalog : compiler.catalog = second.catalog) (registry : compiler.registry = second.registry)
    (base : compiler.base? = second.base?) (same : ∀ call, call ∈ calls ↔ call ∈ others) (dialect : Dialect) :
    (compiler.table dialect).Perm (second.table dialect) := by
  have names (name : String) :
      name ∈ Record.names (compiler.table dialect) ↔ name ∈ Record.names (second.table dialect) := by
    rw [tracks.mem_names_iff, tracksToo.mem_names_iff]
    simp only [same, Compiler.dialect, catalog, registry, base]
  have bodies {name : String} {first other : Schema} (one : (name, first) ∈ compiler.table dialect)
      (two : (name, other) ∈ second.table dialect) : first = other := by
    obtain ⟨definition, held, own, -, -, outlined⟩ := tracks.outlined one
    obtain ⟨again, heldToo, ownToo, -, only, outlinedToo⟩ := tracksToo.outlined two
    cases only (.checked definition) (catalog ▸ held) (congrArg Name.text own)
    rw [hoisting, catalog, registry] at outlined
    exact Option.some.inj (outlined.symm.trans outlinedToo)
  apply (List.perm_ext_iff_of_nodup (.of_map _ (unique dialect)) (.of_map _ (uniqueToo dialect))).mpr
  intro entry
  obtain ⟨name, body⟩ := entry
  constructor
  · intro member
    obtain ⟨other, present⟩ := Record.exists_of_mem_names ((names name).mp (Record.mem_names_of_mem member))
    exact bodies member present ▸ present
  · intro member
    obtain ⟨other, present⟩ := Record.exists_of_mem_names ((names name).mpr (Record.mem_names_of_mem member))
    exact bodies present member ▸ present

/-- Whatever was compiled before, a call answers as on a compiler that has compiled nothing, and appends
the entries of that compiler which the table lacks. Sessions in which the same calls succeed over the
same types end with the same tables, up to the order of entries. -/
theorem history_independent (catalog : Catalog) (registry : Registry) (mode : Mode) (base? : Option String)
    (history : List Action) (built : catalog.OfDefinitions)
    (orderly : (new catalog registry mode base?).Orderly history) :
    let begun := new catalog registry mode base?
    let compiler := begun.after history
    (∀ action given called, compiler.Admits action → action.call? = some (given, called) →
      let renewed := new compiler.catalog registry mode base?
      compiler.answer action = renewed.answer action ∧
        ∀ compiled, compiler.answer action = .call (.ok compiled) →
          (compiler.act action).table (compiler.dialect called) =
            compiler.table (compiler.dialect called) ++ Record.beyond (compiler.table (compiler.dialect called))
              ((renewed.act action).table (compiler.dialect called))) ∧
    (∀ other, begun.Orderly other → (begun.after other).catalog = compiler.catalog →
      (∀ call, call ∈ begun.successes history ↔ call ∈ begun.successes other) →
      ∀ dialect, (compiler.table dialect).Perm ((begun.after other).table dialect)) := by
  intro begun compiler
  have tracks : compiler.Tracks (begun.successes history) := (new_tracks built registry mode base?).after orderly
  refine ⟨fun action given called admitted call => ?_, fun other orderlyToo sameCatalog same dialect => ?_⟩
  · have answers := answer_renewed tracks admitted call
    rwa [renewed_after orderly] at answers
  · have tracksToo : (begun.after other).Tracks (begun.successes other) :=
      (new_tracks built registry mode base?).after orderlyToo
    have unique (actions : List Action) : (begun.after actions).Unrepeated :=
      (after_appends begun actions).2 (new_unrepeated catalog registry mode base?)
    obtain ⟨_, _, fixed⟩ : ∃ catalog tables, compiler = { begun with catalog, tables } := after_fixed orderly
    obtain ⟨_, _, fixedToo⟩ := after_fixed orderlyToo
    exact tracks.perm tracksToo (unique history) (unique other) sameCatalog.symm (by rw [fixed, fixedToo])
      (by rw [fixed, fixedToo]) same dialect

/-- Two types that refer to each other, compiled from either end first. -/
theorem history_independent_of_ring :
    let field (type : String) : Field := ⟨"other", .text type, none, none, none⟩
    let first : Definition := .product "First" [field "second?"] none none "application/json"
    let second : Definition := .product "Second" [field "first"] none none "application/json"
    let forth : Action := .compile (.written (.text "first")) .refSchema
    let back : Action := .compile (.written (.text "second")) .refSchema
    let register : List Action :=
      [.registerType (some "first") (.checked first), .registerType (some "second") (.checked second)]
    let begun := Compiler.new .empty .builtins .refSchema none
    let compiler := begun.after (register ++ [forth])
    let renewed := new compiler.catalog .builtins .refSchema none
    let dialect := compiler.dialect .refSchema
    Record.names (compiler.table dialect) = ["Second", "First"] ∧
      Record.names ((renewed.act back).table dialect) = ["First", "Second"] ∧
      compiler.answer back = renewed.answer back ∧
      ∀ dialect, ((begun.after (register ++ [forth, back])).table dialect).Perm
        ((begun.after (register ++ [back, forth])).table dialect) := by
  intro field first second forth back register begun compiler renewed dialect
  have orderly (calls : List Action) (written : begun.after register |>.Orderly calls) :
      begun.Orderly (register ++ calls) := ⟨⟨first, rfl⟩, ⟨second, rfl⟩, written⟩
  have once := history_independent .empty .builtins .refSchema none (register ++ [forth]) .empty
    (orderly _ ⟨nofun, trivial⟩)
  have twice := history_independent .empty .builtins .refSchema none (register ++ [forth, back]) .empty
    (orderly _ ⟨nofun, nofun, trivial⟩)
  refine ⟨by decide +kernel, by decide +kernel, (once.1 back _ _ nofun rfl).1, ?_⟩
  refine twice.2 (register ++ [back, forth]) (orderly _ ⟨nofun, nofun, trivial⟩) ?_ fun call => ?_
  · have kept (one two : Action) (given other : Referent) (mode called : Mode) (first : one.call? = some (given, mode))
        (second : two.call? = some (other, called)) :
        (begun.after (register ++ [one, two])).catalog = (begun.after register).catalog :=
      (catalog_of_call second).trans (catalog_of_call first)
    exact (kept back forth _ _ _ _ rfl rfl).trans (kept forth back _ _ _ _ rfl rfl).symm
  · have succeeds (one two : Action) (given other : Referent) (mode called : Mode)
        (first : one.call? = some (given, mode)) (second : two.call? = some (other, called))
        (here : ((begun.after register).answer one).isFailure = false)
        (there : ((begun.after (register ++ [one])).answer two).isFailure = false) :
        begun.successes (register ++ [one, two]) = [(given, mode), (other, called)] := by
      change ((begun.after register).success? one).toList ++
        (((begun.after (register ++ [one])).success? two).toList ++ []) = _
      rw [success?_of_call first here, success?_of_call second there]
      rfl
    rw [succeeds forth back _ _ _ _ rfl rfl (by decide +kernel) (by decide +kernel),
      succeeds back forth _ _ _ _ rfl rfl (by decide +kernel) (by decide +kernel)]
    exact (List.Perm.swap ..).mem_iff

end Compiler

end Schemata
