import Schemata.Proofs.DefinitionGraph
import Schemata.Proofs.ReferenceGrammar
import Schemata.Proofs.WalkMemory
import Schemata.Proofs.WrittenSchemas

/-! The ways to ask for a type. A definition can be given itself or by its identifier, and the parameters
of an input type can be asked for outright. Each way looks at something that the others do not look at:
a text is read, classified and remembered, and only a type that is an input has parameters. -/

namespace Schemata

section Log

variable {setting : Setting}

/-- One and the same compilation, begun with different lines in the log. -/
private def logs (setting : Setting) : Comparison setting Walk.memoized Walk.memoized Eq where
  related _ := Walk.Matches Eq
  meets _ _ := True
  matched matched := matched
  enter matched := matched
  element _ := trivial
  mentioned _ _ _ := trivial
  remembered _ agrees := by
    rw [compileSpecWith_eq]
    exact Walk.Agrees.memoized agrees

private theorem respects_body (chain : List Name) (kind : Kind) (entry : Entry) :
    Walk.Respects (Walk.Matches Eq) (compileBody setting chain kind entry) := by
  rw [← compileBodyWith_memoized]
  exact (logs setting).body kind fun _ _ => trivial

private theorem respects_input (entry : Entry) : Walk.Respects (Walk.Matches Eq) (Compiled.ofInput setting entry) := by
  rw [← Compiled.ofInputWith_memoized]
  exact (logs setting).input fun _ _ => trivial

/-- The first reference of a call is never remembered, so that it is compiled all the same. -/
private theorem alike_first {walk twin : Walk Schema} {first second : Progress} (spec : TypeSpec)
    (fresh : second.known = []) (alike : Walk.Alike (Walk.Matches Eq) (walk.run first) (twin.run second)) :
    Walk.Alike (Walk.Matches fun _ _ => True) ((walk >>= fun schema => pure (Compiled.single schema)).run first)
      ((Walk.memoized spec twin >>= fun schema => pure (Compiled.single schema)).run second) := by
  simp only [Walk.memoized, bind_assoc]
  rw [EStateM.run_bind (get : Walk Progress), EStateM.run_get]
  simp only [fresh, List.lookup_nil, bind_assoc]
  exact alike.bind fun schema one other matched => .ok ⟨matched.1, trivial⟩

private theorem alike_identifier {identifier : String} {definition : Definition} {first second : Progress}
    (nameable : TypeSpec.isName identifier.toList = true)
    (classified : classify setting.catalog setting.registry identifier =
      .ok (.entry definition.kind (.checked definition)))
    (matched : Walk.Matches Eq first second) (fresh : second.known = []) :
    Walk.Alike (Walk.Matches fun _ _ => True)
      ((Compiled.ofReferent setting (.entry (.checked definition))).run first)
      ((Compiled.ofReferent setting (.written (.text identifier))).run second) := by
  have written : Compiled.ofReferent setting (.written (.text identifier)) =
      Compiled.ofSpec setting (.named identifier false false) := by
    rw [Compiled.ofReferent, TypeSpec.read_name nameable]
    rfl
  rw [written, Compiled.ofReferent]
  by_cases named : definition.kind.isNamed = true
  · have noInput (entry : Entry) : Classified.entry definition.kind (.checked definition) ≠ .entry .input entry := by
      intro same
      rw [(Classified.entry.inj same).1] at named
      cases named
    rw [Compiled.ofSpec_named classified noInput, Compiled.ofDefinition_named named]
    refine alike_first _ fresh ?_
    rw [compileName_named named classified]
    exact matched.occurrence fun _ => respects_body _ _ _ first second matched
  · cases definition with
    | product | sum | map | union => exact absurd rfl named
    | scalar name fragment =>
      rw [Compiled.ofSpec_named classified (by simp [Definition.kind])]
      have alike : Walk.Alike (Walk.Matches Eq) ((pure (.ofRecord fragment) : Walk Schema).run first)
          ((compileName setting [] identifier false false).run second) := by
        rw [compileName_scalar classified, ← Schema.ofValue_record]
        exact .ok matched
      exact alike_first _ fresh alike
    | input name parameters =>
      rw [Compiled.ofSpec_input classified, if_neg Bool.false_ne_true]
      exact (respects_input _ first second matched).imp fun matched => ⟨matched.1, trivial⟩

end Log

namespace Compiler

variable {compiler : Compiler} {given : Referent} {mode : Mode}

inductive NamesInput (compiler : Compiler) : Referent → Prop where
  | definition {name : String} {parameters : List Parameter} :
      NamesInput compiler (.entry (.checked (.input name parameters)))
  | written {value : Value} {name : String} {required nullable : Bool} {entry : Entry}
      (read : TypeSpec.read false value = .ok (.named name required nullable))
      (classified : classify compiler.catalog compiler.registry name = .ok (.entry .input entry)) :
      NamesInput compiler (.written value)

/-- What is written stands for an entry if it is a name of it. -/
theorem resolve_written {value : Value} {kind : Kind} {entry : Entry} :
    compiler.resolve (.written value) = .ok (some (kind, entry)) ↔
      ∃ name required nullable, TypeSpec.read false value = .ok (.named name required nullable) ∧
        classify compiler.catalog compiler.registry name = .ok (.entry kind entry) := by
  constructor
  · intro resolved
    rw [resolve] at resolved
    cases read : TypeSpec.read false value with
    | error misreading => rw [read] at resolved; cases resolved
    | ok spec =>
      rw [read] at resolved
      cases spec with
      | array => cases resolved
      | named name required nullable =>
        simp only [TypeSpec.name?] at resolved
        cases classified : classify compiler.catalog compiler.registry name with
        | error => rw [classified] at resolved; cases resolved
        | ok found =>
          rw [classified] at resolved
          cases found with
          | primitive => cases resolved
          | entry => cases resolved; exact ⟨name, required, nullable, rfl, classified⟩
  · intro names
    obtain ⟨name, required, nullable, read, classified⟩ := names
    simp only [resolve, read, TypeSpec.name?, classified]
    rfl

theorem requireInput_eq_ok :
    compiler.requireInput given = .ok () ↔ ∃ entry, compiler.resolve given = .ok (some (.input, entry)) := by
  constructor
  · intro required
    rw [requireInput] at required
    cases resolved : compiler.resolve given with
    | error => rw [resolved] at required; cases required
    | ok found =>
      rw [resolved] at required
      obtain _ | ⟨kind, entry⟩ := found
      · cases required
      · cases kind with
        | input => exact ⟨entry, rfl⟩
        | scalar | product | sum | map | union => cases required
  · intro input
    obtain ⟨entry, resolved⟩ := input
    rw [requireInput, resolved]
    rfl

theorem requireInput_ok : compiler.requireInput given = .ok () ↔ compiler.NamesInput given := by
  rw [requireInput_eq_ok]
  constructor
  · intro input
    obtain ⟨entry, resolved⟩ := input
    cases given with
    | entry own =>
      cases own with
      | handwritten => cases resolved
      | checked definition =>
        cases definition with
        | scalar | product | sum | map | union => cases resolved
        | input => exact .definition
    | written value =>
      obtain ⟨name, required, nullable, read, classified⟩ := resolve_written.mp resolved
      exact .written read classified
  · intro names
    cases names with
    | definition => exact ⟨_, rfl⟩
    | written read classified => exact ⟨_, resolve_written.mpr ⟨_, _, _, read, classified⟩⟩

theorem compileParameters_eq (names : compiler.NamesInput given) :
    compiler.compileParameters given mode = compiler.compile given mode := by
  unfold compileParameters
  rw [requireInput_ok.mpr names]

/-- What is no input type is refused before anything is compiled. -/
theorem compileParameters_refuses (other : ¬ compiler.NamesInput given) :
    (∃ error, (compiler.compileParameters given mode).outcome = .error error) ∧
      (compiler.compileParameters given mode).compiler = compiler := by
  unfold compileParameters
  split
  next error _ => exact ⟨⟨error, rfl⟩, rfl⟩
  next required => exact absurd (requireInput_ok.mp required) other

theorem namesInput_of_parameters {records : List (ParameterRecord Schema)}
    (answered : (compiler.compile given mode).outcome = .ok (.parameters records)) : compiler.NamesInput given := by
  obtain ⟨progress, run, -⟩ := compile_ok answered
  have received : (compiler.setting mode).growth.Receives given :=
    Discipline.receives_of_admits _ (fun _ => trivial) fun _ _ => trivial
  obtain ⟨-, -, answers⟩ := (compiler.setting mode).growth.ensures_ofReferent given received _ _ _ trivial run
  cases answers with
  | input read classified => exact .written read classified
  | parameters => exact .definition

theorem act_registered (registered : compiler.catalog.Registered) (action : Action) :
    (compiler.act action).catalog.Registered := by
  have taken := compiler.step action
  generalize compiler.act action = after at taken ⊢
  generalize compiler.answer action = answer at taken
  cases taken with
  | failed | refused | primitive => exact registered
  | registered accepted => exact .register registered accepted
  | answered call succeeded =>
    obtain ⟨progress, -, same⟩ := compile_ok succeeded
    rw [same]
    exact registered

theorem after_registered (registered : compiler.catalog.Registered) (actions : List Action) :
    (compiler.after actions).catalog.Registered :=
  after_induction (fun other action _ (held : other.catalog.Registered) => act_registered held action) registered

/-- A definition that the catalog holds compiles as its identifier does, unless that is the name of a
primitive. Asking for parameters is compiling what is an input type, and refusing anything else. -/
theorem entry_points_agree (catalog : Catalog) (registry : Registry) (mode : Mode) (base? : Option String)
    (history : List Action) (registered : catalog.Registered) :
    let compiler := (new catalog registry mode base?).after history
    (∀ identifier definition called, compiler.catalog.get? identifier = some (.checked definition) →
      compiler.registry.get? identifier = none →
      let direct := compiler.compile (.entry (.checked definition)) called
      let named := compiler.compile (.written (.text identifier)) called
      direct.outcome = named.outcome ∧ direct.compiler = named.compiler) ∧
    (∀ given called records, (compiler.compile given called).outcome = .ok (.parameters records) →
      (compiler.compileParameters given called).outcome = .ok (.parameters records) ∧
        (compiler.compileParameters given called).compiler = (compiler.compile given called).compiler) ∧
    (∀ given called, ¬ compiler.NamesInput given →
      (∃ error, (compiler.compileParameters given called).outcome = .error error) ∧
        (compiler.compileParameters given called).compiler = compiler) := by
  intro compiler
  refine ⟨fun identifier definition called held free => ?_, fun given called records answered => ?_,
    fun given called other => compileParameters_refuses other⟩
  · have built : compiler.catalog.Registered := after_registered registered history
    have classified : classify compiler.catalog compiler.registry identifier =
        .ok (.entry definition.kind (.checked definition)) := classify_entry.mpr ⟨free, held, rfl⟩
    rw [← compileWith_memoized]
    apply compileWith_alike
    rw [Compiled.ofReferentWith_memoized]
    exact alike_identifier (built.isName held) classified ⟨rfl, rfl⟩ rfl
  · rw [compileParameters_eq (namesInput_of_parameters answered)]
    exact ⟨answered, rfl⟩

/-- A type that contains itself, asked for in both ways with hoisting and without, and an input type. -/
theorem entry_points_agree_of_node :
    let node : Definition := .product "Node" [⟨"next", .text "node?", none, none, none⟩] none none "application/json"
    let search : Definition := .input "Search" [⟨"start", .text "path:!node", none⟩]
    let history : List Action :=
      [.registerType (some "node") (.checked node), .registerType (some "search") (.checked search)]
    let compiler := (new .empty .builtins .refSchema none).after history
    let direct := compiler.compile (.entry (.checked node))
    let named := compiler.compile (.written (.text "node"))
    Record.names ((direct .refSchema).compiler.schemasFor .refSchema) = ["Node"] ∧
      (direct .refSchema).compiler = (named .refSchema).compiler ∧
      (direct .jsonSchema).outcome.toOption.isNone = true ∧
      (direct .jsonSchema).outcome = (named .jsonSchema).outcome ∧
      (∃ records, (compiler.compile (.written (.text "search")) .refSchema).outcome = .ok (.parameters records) ∧
        (compiler.compileParameters (.written (.text "search")) .refSchema).outcome = .ok (.parameters records)) ∧
      ∃ error, (compiler.compileParameters (.entry (.checked node)) .refSchema).outcome = .error error := by
  intro node search history compiler direct named
  have agree := entry_points_agree .empty .builtins .refSchema none history .empty
  have sameCalls (mode : Mode) := agree.1 "node" node mode rfl rfl
  have answered : ((compiler.compile (.written (.text "search")) .refSchema).outcome.toOption.bind
      Compiled.records?).isSome = true := by
    decide +kernel
  obtain ⟨records, found⟩ := Option.isSome_iff_exists.mp answered
  obtain ⟨compiled, outcome, same⟩ := Option.bind_eq_some_iff.mp found
  cases Compiled.records?_eq_some.mp same
  have outcome := toOption_eq_some.mp outcome
  have other : ¬ compiler.NamesInput (.entry (.checked node)) := by
    intro names
    cases requireInput_ok.mpr names
  refine ⟨by decide +kernel, (sameCalls .refSchema).2, by decide +kernel, (sameCalls .jsonSchema).1,
    ⟨records, outcome, ?_⟩, ?_⟩
  · exact (agree.2.1 _ _ records outcome).1
  · exact (agree.2.2 _ .refSchema other).1

end Compiler

end Schemata
