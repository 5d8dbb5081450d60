import Schemata.Compiler

/-!
Sessions: what is done with one compiler, one thing after another. Types and primitives may be
registered between calls, and a call or a registration that fails leaves the compiler as it was.
-/

namespace Schemata

inductive Action where
  | compile (given : Referent) (mode : Mode)
  | compileParameters (given : Referent) (mode : Mode)
  | registerType (identifier : Option String) (entry : Entry)
  | registerPrimitive (name : String) (fragment : Value)

def Action.call? : Action → Option (Referent × Mode)
  | .compile given mode => some (given, mode)
  | .compileParameters given mode => some (given, mode)
  | .registerType .. => none
  | .registerPrimitive .. => none

/-- What an action answers. -/
inductive Answer where
  | call (outcome : Except CompileError Compiled)
  | registration (outcome : Except CatalogError Unit)

namespace Answer

def isFailure : Answer → Bool
  | .call (.error _) => true
  | _ => false

end Answer

namespace Compiler

def answer (compiler : Compiler) : Action → Answer
  | .compile given mode => .call (compiler.compile given mode).outcome
  | .compileParameters given mode => .call (compiler.compileParameters given mode).outcome
  | .registerType identifier entry =>
    .registration ((compiler.catalog.register identifier entry).map fun _ => ())
  | .registerPrimitive .. => .registration (.ok ())

def act (compiler : Compiler) : Action → Compiler
  | .compile given mode => (compiler.compile given mode).compiler
  | .compileParameters given mode => (compiler.compileParameters given mode).compiler
  | .registerType identifier entry =>
    match compiler.catalog.register identifier entry with
    | .ok catalog => { compiler with catalog }
    | .error _ => compiler
  | .registerPrimitive name fragment =>
    { compiler with registry := compiler.registry.register name fragment }

def after (compiler : Compiler) (actions : List Action) : Compiler := actions.foldl act compiler

def answers : Compiler → List Action → List Answer
  | _, [] => []
  | compiler, action :: rest => compiler.answer action :: (compiler.act action).answers rest

/-- The actions less the calls that fail when their turn comes. -/
def withoutFailures : Compiler → List Action → List Action
  | _, [] => []
  | compiler, action :: rest =>
    let later := (compiler.act action).withoutFailures rest
    if (compiler.answer action).isFailure then later else action :: later

def success? (compiler : Compiler) (action : Action) : Option (Referent × Mode) :=
  match compiler.answer action with
  | .call (.ok _) => action.call?
  | _ => none

def successes : Compiler → List Action → List (Referent × Mode)
  | _, [] => []
  | compiler, action :: rest => (compiler.success? action).toList ++ (compiler.act action).successes rest

end Compiler

end Schemata
