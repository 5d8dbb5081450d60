import Schemata.Proofs.CompileRules
import Schemata.Proofs.SessionTables
import Schemata.Proofs.WalkAgreement

/-! Compilations with another memory. The walk asks its memory once for every reference; here the memory
is a parameter, so that a compilation can be set beside one that remembers nothing. Two compilations that
differ in their memories only are compared in one induction, along the chain and the brackets. -/

namespace Schemata

/-- What becomes of the walk of a reference when it may be remembered. -/
abbrev Memory := TypeSpec → Walk Schema → Walk Schema

def Memory.absent : Memory := fun _ compile => compile

variable (memory : Memory)

def Setting.specWith (setting : Setting) (named : String → Bool → Bool → Walk Schema) : TypeSpec → Walk Schema
  | .named name required nullable => memory (.named name required nullable) (named name required nullable)
  | .array element required nullable =>
    memory (.array element required nullable) do
      let items ← setting.specWith named element
      setting.widen nullable (.array items)

def compileNameWith (setting : Setting) (chain : List Name) (name : String) (required nullable : Bool) : Walk Schema :=
  match classified : classify setting.catalog setting.registry name with
  | .error error => throw error
  | .ok (.primitive fragment) => setting.widen nullable (.ofValue fragment)
  | .ok (.entry .input _) =>
    throw (.invalidReference (.written (.text (TypeSpec.named name required nullable).render)) (.nestedInput name))
  | .ok (.entry .scalar entry) => do
    let fragment ← Walk.ofAccess entry.fragment
    setting.widen nullable (.ofValue fragment)
  | .ok (.entry kind entry) =>
    setting.occurrence chain entry nullable fun fresh =>
      have := Setting.unvisited_lt (mem_of_classify_eq classified) fresh
      setting.body (setting.specWith memory fun name required nullable =>
        compileNameWith setting (chain ++ [entry.name]) name required nullable) kind entry
  termination_by setting.unvisited chain

def compileSpecWith (setting : Setting) (chain : List Name) : TypeSpec → Walk Schema :=
  setting.specWith memory (compileNameWith memory setting chain)

def compileBodyWith (setting : Setting) (chain : List Name) : Kind → Entry → Walk Schema :=
  setting.body (compileSpecWith memory setting chain)

namespace Compiled

def ofInputWith (setting : Setting) (entry : Entry) : Walk Compiled := do
  return .parameters (← Walk.parameters (compileSpecWith memory setting []) entry)

def ofSpecWith (setting : Setting) (spec : TypeSpec) : Walk Compiled := do
  if let some name := spec.name? then
    if let .entry .input entry ← Walk.ofResult (classify setting.catalog setting.registry name) then
      if spec.nullable then
        throw (.invalidReference (.written (.text spec.render)) .nullableInput)
      return ← ofInputWith memory setting entry
  return .single (← compileSpecWith memory setting [] spec)

def ofDefinitionWith (setting : Setting) (definition : Definition) : Walk Compiled :=
  let entry : Entry := .checked definition
  match definition with
  | .input .. => ofInputWith memory setting entry
  | .scalar _ fragment => return .single (.ofRecord fragment)
  | definition => do
    let schema ← setting.occurrence [] entry false fun _ =>
      compileBodyWith memory setting [entry.name] definition.kind entry
    return .single schema

def ofReferentWith (setting : Setting) : Referent → Walk Compiled
  | .entry (.checked definition) => ofDefinitionWith memory setting definition
  | .entry (.handwritten shape) => throw (.invalidReference (.entry (.handwritten shape)) .notReference)
  | .written value => do
    ofSpecWith memory setting (← Walk.ofReading (TypeSpec.read false value))

end Compiled

def Compiler.compileWith (compiler : Compiler) (given : Referent) (mode : Mode) : Call (Except CompileError Compiled) :=
  match (Compiled.ofReferentWith memory (compiler.setting mode) given).run (compiler.start given mode) with
  | .ok compiled progress =>
    { outcome := .ok compiled, compiler := compiler.setTable (compiler.dialect mode) progress.table
      events := progress.events.reverse }
  | .error error progress => { outcome := .error error, compiler, events := progress.events.reverse }

theorem compileNameWith_eq (setting : Setting) (chain : List Name) (name : String) (required nullable : Bool) :
    compileNameWith memory setting chain name required nullable =
      match classify setting.catalog setting.registry name with
      | .error error => throw error
      | .ok (.primitive fragment) => .ofAccess (setting.widened nullable (.ofValue fragment))
      | .ok (.entry .input _) =>
        throw (.invalidReference (.written (.text (TypeSpec.named name required nullable).render)) (.nestedInput name))
      | .ok (.entry .scalar entry) =>
        Walk.ofAccess entry.fragment >>= fun fragment => .ofAccess (setting.widened nullable (.ofValue fragment))
      | .ok (.entry kind entry) =>
        setting.occurrence chain entry nullable fun _ =>
          compileBodyWith memory setting (chain ++ [entry.name]) kind entry := by
  rw [compileNameWith]
  simp only [Setting.widen_eq]
  split <;> simp_all [compileBodyWith, compileSpecWith]

theorem compileNameWith_named {setting : Setting} {chain : List Name} {name : String} {required nullable : Bool}
    {kind : Kind} {entry : Entry} (named : kind.isNamed = true)
    (classified : classify setting.catalog setting.registry name = .ok (.entry kind entry)) :
    compileNameWith memory setting chain name required nullable =
      setting.occurrence chain entry nullable fun _ =>
        compileBodyWith memory setting (chain ++ [entry.name]) kind entry := by
  rw [compileNameWith_eq, classified]
  cases kind with
  | scalar | input => cases named
  | product | sum | map | union => rfl

theorem compileNameWith_fragment {setting : Setting} {chain : List Name} {name : String} {required nullable : Bool}
    {fragment : Value} (supplies : setting.catalog.Supplies setting.registry name fragment) :
    compileNameWith memory setting chain name required nullable =
      .ofAccess (setting.widened nullable (.ofValue fragment)) := by
  cases supplies with
  | primitive classified => rw [compileNameWith_eq, classified]
  | scalar classified =>
    rw [compileNameWith_eq, classified]
    rfl

def Setting.anew (setting : Setting) (chain : List Name) : TypeSpec → Walk Schema
  | .named name required nullable => compileNameWith memory setting chain name required nullable
  | .array element _ nullable =>
    compileSpecWith memory setting chain element >>= fun items => .ofAccess (setting.widened nullable (.array items))

theorem compileSpecWith_eq (setting : Setting) (chain : List Name) (spec : TypeSpec) :
    compileSpecWith memory setting chain spec = memory spec (setting.anew memory chain spec) := by
  cases spec with
  | named name required nullable => rfl
  | array element required nullable =>
    simp only [compileSpecWith, Setting.specWith, Setting.anew, Setting.widen_eq]

private theorem specWith_memoized (setting : Setting) (named : String → Bool → Bool → Walk Schema) :
    setting.specWith Walk.memoized named = setting.spec named := by
  funext spec
  induction spec with
  | named name required nullable => rfl
  | array element required nullable ih => rw [Setting.specWith, Setting.spec, ih]

private theorem compileNameWith_memoized (setting : Setting) (chain : List Name) :
    compileNameWith Walk.memoized setting chain = compileName setting chain := by
  induction chain using setting.chain_induction with
  | step chain ih =>
    funext name required nullable
    rw [compileNameWith_eq]
    cases classified : classify setting.catalog setting.registry name with
    | error error => exact (compileName_error classified).symm
    | ok found =>
      cases found with
      | primitive fragment => exact (compileName_primitive classified).symm
      | entry kind entry =>
        cases kind with
        | input => exact (compileName_input classified).symm
        | scalar => exact (compileName_scalar classified).symm
        | product | sum | map | union =>
          rw [compileName_named rfl classified]
          refine congrArg (setting.occurrence chain entry nullable) (funext fun fresh => ?_)
          have inner := ih entry (mem_of_classify_eq classified) fresh
          simp only [compileBodyWith, compileBody, compileSpecWith, compileSpec, inner, specWith_memoized]

theorem compileSpecWith_memoized : compileSpecWith Walk.memoized = compileSpec := by
  funext setting chain
  rw [compileSpecWith, compileSpec, compileNameWith_memoized, specWith_memoized]

theorem compileBodyWith_memoized : compileBodyWith Walk.memoized = compileBody := by
  funext setting chain
  rw [compileBodyWith, compileBody, compileSpecWith_memoized]

theorem Compiled.ofInputWith_memoized : ofInputWith Walk.memoized = ofInput := by
  funext setting entry
  rw [ofInputWith, ofInput, compileSpecWith_memoized]

theorem Compiled.ofReferentWith_memoized : ofReferentWith Walk.memoized = ofReferent := by
  have single : ofSpecWith Walk.memoized = ofSpec := by
    funext setting spec
    rw [ofSpecWith, compileSpecWith_memoized, ofInputWith_memoized]
    rfl
  have definition : ofDefinitionWith Walk.memoized = ofDefinition := by
    funext setting definition
    rw [ofDefinitionWith.eq_def, ofInputWith_memoized, compileBodyWith_memoized]
    rfl
  funext setting given
  rw [ofReferentWith.eq_def, single, definition]
  rfl

/-- A call remembers what it has compiled. -/
theorem Compiler.compileWith_memoized : compileWith Walk.memoized = compile := by
  funext compiler given mode
  rw [compileWith, Compiled.ofReferentWith_memoized]
  rfl

/-- The references of an entry. Of an object that nobody has checked nothing is known. -/
def Entry.MayMention (entry : Entry) (spec : TypeSpec) : Prop :=
  ∀ definition, entry = .checked definition → definition.Mentions spec

theorem Entry.mayMention_handwritten (shape : Shape) (spec : TypeSpec) : (Entry.handwritten shape).MayMention spec := by
  simp [Entry.MayMention]

/-- How two compilations that differ in their memories are compared: which progresses are related while a
chain is written out, and which references are met there. That the memories make no difference for a
reference has to be shown only where they make none inside it. -/
structure Comparison (setting : Setting) (memory memoryToo : Memory)
    (kept : List (TypeSpec × Schema) → List (TypeSpec × Schema) → Prop) where
  related : List Name → Progress → Progress → Prop
  meets : List Name → TypeSpec → Prop
  matched {chain : List Name} {first second : Progress} :
    related chain first second → Walk.Matches kept first second
  enter {chain : List Name} {entry : Entry} {first second : Progress} :
    related chain first second → related (chain ++ [entry.name]) first second
  element {chain : List Name} {element : TypeSpec} {required nullable : Bool} :
    meets chain (.array element required nullable) → meets chain element
  mentioned {chain : List Name} {name : String} {required nullable : Bool} {kind : Kind} {entry : Entry}
    {spec : TypeSpec} : meets chain (.named name required nullable) →
    classify setting.catalog setting.registry name = .ok (.entry kind entry) → entry.MayMention spec →
    meets (chain ++ [entry.name]) spec
  remembered {chain : List Name} {spec : TypeSpec} : meets chain spec →
    (∀ first second, related chain first second → Walk.Alike (Walk.Matches kept)
      ((setting.anew memory chain spec).run first) ((setting.anew memoryToo chain spec).run second)) →
    Walk.Agrees (related chain) (compileSpecWith memory setting chain spec)
      (compileSpecWith memoryToo setting chain spec)

namespace Comparison

variable {setting : Setting} {memory memoryToo : Memory}
  {kept : List (TypeSpec × Schema) → List (TypeSpec × Schema) → Prop}
  (comparison : Comparison setting memory memoryToo kept)

private theorem body_of {chain : List Name} {entry : Entry}
    (references : ∀ spec, entry.MayMention spec → Walk.Agrees (comparison.related chain)
      (compileSpecWith memory setting chain spec) (compileSpecWith memoryToo setting chain spec)) (kind : Kind) :
    Walk.Agrees (comparison.related chain) (compileBodyWith memory setting chain kind entry)
      (compileBodyWith memoryToo setting chain kind entry) := by
  cases entry with
  | checked definition =>
    apply Walk.Agrees.definitionBody
    intro spec mentions
    apply references
    intro other same
    cases same
    exact mentions
  | handwritten shape => exact Walk.Agrees.shapeBody kind shape fun spec => references spec nofun

/-- A reference that is met compiles alike. -/
theorem agrees (chain : List Name) {spec : TypeSpec} (met : comparison.meets chain spec) :
    Walk.Agrees (comparison.related chain) (compileSpecWith memory setting chain spec)
      (compileSpecWith memoryToo setting chain spec) := by
  induction chain using setting.chain_induction generalizing spec with
  | step chain ih =>
    induction spec with
    | array element required nullable inner =>
      refine comparison.remembered met fun first second related => ?_
      have alike := inner (comparison.element met) first second related
      exact alike.bind fun items _ _ related => Walk.Agrees.ofAccess _ _ _ (comparison.matched related)
    | named name required nullable =>
      refine comparison.remembered met fun first second related => ?_
      have matched := comparison.matched related
      simp only [Setting.anew, compileNameWith_eq]
      cases classified : classify setting.catalog setting.registry name with
      | error error => exact .error
      | ok found =>
        cases found with
        | primitive fragment => exact Walk.Agrees.ofAccess _ _ _ matched
        | entry kind entry =>
          cases kind with
          | input => exact .error
          | scalar =>
            exact Walk.Agrees.bind (Walk.Agrees.ofAccess _) (fun fragment => Walk.Agrees.ofAccess _) _ _ matched
          | product | sum | map | union =>
            refine matched.occurrence fun fresh => ?_
            have body := comparison.body_of fun spec mentions =>
              ih entry (mem_of_classify_eq classified) fresh (comparison.mentioned met classified mentions)
            exact (body _ _ _ (comparison.enter related)).imp comparison.matched

theorem body {chain : List Name} (kind : Kind) {entry : Entry}
    (met : ∀ spec, entry.MayMention spec → comparison.meets chain spec) :
    Walk.Agrees (comparison.related chain) (compileBodyWith memory setting chain kind entry)
      (compileBodyWith memoryToo setting chain kind entry) :=
  comparison.body_of (fun spec mentions => comparison.agrees chain (met spec mentions)) kind

theorem input {entry : Entry} (met : ∀ spec, entry.MayMention spec → comparison.meets [] spec) :
    Walk.Agrees (comparison.related []) (Compiled.ofInputWith memory setting entry)
      (Compiled.ofInputWith memoryToo setting entry) := by
  apply Walk.Agrees.bind
  · exact Walk.Agrees.parameters entry fun spec mentions => comparison.agrees [] (met spec mentions)
  · exact fun records => Walk.Agrees.pure _

theorem spec {first second : Progress} (related : comparison.related [] first second)
    (met : ∀ spec, comparison.meets [] spec) (spec : TypeSpec) :
    Walk.Alike (Walk.Matches kept) ((Compiled.ofSpecWith memory setting spec).run first)
      ((Compiled.ofSpecWith memoryToo setting spec).run second) := by
  have single : Walk.Alike (Walk.Matches kept)
      ((compileSpecWith memory setting [] spec >>= fun schema => pure (Compiled.single schema)).run first)
      ((compileSpecWith memoryToo setting [] spec >>= fun schema => pure (Compiled.single schema)).run second) :=
    (comparison.agrees [] (met spec) first second related).bind fun _ _ _ related => .ok (comparison.matched related)
  cases spec with
  | array element required nullable => exact single
  | named name required nullable =>
    unfold Compiled.ofSpecWith
    simp only [TypeSpec.name?]
    cases classified : classify setting.catalog setting.registry name with
    | error error => exact .error
    | ok found =>
      cases found with
      | primitive fragment => exact single
      | entry kind entry =>
        cases kind with
        | scalar | product | sum | map | union => exact single
        | input =>
          cases nullable with
          | true => exact .error
          | false =>
            exact (comparison.input (fun spec _ => met spec) first second related).imp comparison.matched

end Comparison

/-- Calls whose runs are alike have one outcome and leave the same tables. -/
theorem Compiler.compileWith_alike {compiler : Compiler} {memory memoryToo : Memory} {given other : Referent} {mode : Mode}
    {kept : List (TypeSpec × Schema) → List (TypeSpec × Schema) → Prop}
    (alike : Walk.Alike (Walk.Matches kept)
      ((Compiled.ofReferentWith memory (compiler.setting mode) given).run (compiler.start given mode))
      ((Compiled.ofReferentWith memoryToo (compiler.setting mode) other).run (compiler.start other mode))) :
    (compiler.compileWith memory given mode).outcome = (compiler.compileWith memoryToo other mode).outcome ∧
      (compiler.compileWith memory given mode).compiler = (compiler.compileWith memoryToo other mode).compiler := by
  unfold compileWith
  generalize (Compiled.ofReferentWith memory _ given).run _ = here at alike
  generalize (Compiled.ofReferentWith memoryToo _ other).run _ = there at alike
  cases alike with
  | ok matched => exact ⟨rfl, congrArg (compiler.setTable _) matched.1⟩
  | error => exact ⟨rfl, rfl⟩

end Schemata
