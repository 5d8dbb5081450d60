import Schemata.Compile.Walk

/-!
A compiler over a catalog and a registry. It keeps one table of hoisted schemas for every dialect;
a call that fails leaves the tables as they were.
-/

namespace Schemata

structure Compiler where
  catalog : Catalog
  registry : Registry
  /-- The mode of calls that do not say their own. -/
  mode : Mode
  /-- What references start with, whatever the mode. -/
  base? : Option String
  tables : List (Dialect × Table)

/-- Why a request is not answered. -/
inductive RequestError where
  | compile (error : CompileError)
  | mode (error : ModeError)

/-- What a call answers, the compiler after it, and the events of the call in order. -/
structure Call (α : Type) where
  outcome : α
  compiler : Compiler
  events : List Event

namespace Dialect

def jsonSchemaBase : String := "#/definitions/"

def openApiBase : String := "#/components/schemas/"

/-- The dialect of a mode, unless the base is given. -/
def of (base? : Option String) (mode : Mode) : Dialect where
  base := base?.getD (if mode.isOpenApi || mode.isOpenApi31 then openApiBase else jsonSchemaBase)
  flagged := mode.isFlagged

end Dialect

namespace Compiler

def new (catalog : Catalog) (registry : Registry) (mode : Mode) (base? : Option String) : Compiler :=
  { catalog, registry, mode, base?, tables := [] }

def dialect (compiler : Compiler) (mode : Mode) : Dialect := .of compiler.base? mode

/-- The schemas hoisted so far in a dialect. -/
def table (compiler : Compiler) (dialect : Dialect) : Table :=
  (compiler.tables.lookup dialect).getD []

def schemasFor (compiler : Compiler) (mode : Mode) : Table :=
  compiler.table (compiler.dialect mode)

def setTable (compiler : Compiler) (dialect : Dialect) (table : Table) : Compiler :=
  { compiler with
    tables := (dialect, table) :: compiler.tables.filter fun (other, _) => other ≠ dialect }

def setting (compiler : Compiler) (mode : Mode) : Setting where
  catalog := compiler.catalog
  registry := compiler.registry
  dialect := compiler.dialect mode
  hoisting := mode.isHoisting

/-- Compiles what was given. The table is kept only if that succeeds. -/
def compile (compiler : Compiler) (given : Referent) (mode : Mode) :
    Call (Except CompileError Compiled) :=
  let dialect := compiler.dialect mode
  let start : Progress :=
    { table := compiler.table dialect, known := [], events := [.compiling given mode] }
  match (Compiled.ofReferent (compiler.setting mode) given).run start with
  | .ok compiled progress =>
    { outcome := .ok compiled, compiler := compiler.setTable dialect progress.table
      events := progress.events.reverse }
  | .error error progress =>
    { outcome := .error error, compiler, events := progress.events.reverse }

/-- What a reference or a definition stands for: the entry with its kind, or nothing for arrays
and primitives. -/
def resolve (compiler : Compiler) : Referent → Except CompileError (Option (Kind × Entry))
  | .entry (.checked definition) => .ok (some (definition.kind, .checked definition))
  | .entry (.handwritten shape) =>
    .error (.invalidReference (.entry (.handwritten shape)) .notReference)
  | .written value =>
    match TypeSpec.read false value with
    | .error misreading => .error (.ofMisreading misreading)
    | .ok spec =>
      match spec.name? with
      | none => .ok none
      | some name =>
        (classify compiler.catalog compiler.registry name).map fun
          | .primitive _ => none
          | .entry kind entry => some (kind, entry)

/-- Refuses what does not name an input type. -/
def requireInput (compiler : Compiler) (given : Referent) : Except CompileError Unit := do
  match ← compiler.resolve given with
  | some (.input, _) => return ()
  | _ => throw (.invalidReference given .notInput)

/-- Compiles an input type to the records of its parameters. -/
def compileParameters (compiler : Compiler) (given : Referent) (mode : Mode) :
    Call (Except CompileError Compiled) :=
  match compiler.requireInput given with
  | .error error => { outcome := .error error, compiler, events := [] }
  | .ok () => compiler.compile given mode

/-- The media type of a request body of a type. Products say their own. -/
def contentType (compiler : Compiler) (given : Referent) : Except CompileError Value := do
  match ← compiler.resolve given with
  | some (.product, entry) => return entry.contentType
  | _ => return .text Definition.jsonContentType

/-- The mode of a request: its own, or else that of the compiler. -/
def modeOf (compiler : Compiler) : Option Value → Except ModeError Mode
  | none | some .null => .ok compiler.mode
  | some value => Mode.ofValue value

/-- A request to compile, in a mode that may be none. -/
def request (compiler : Compiler) (given : Referent) (mode : Option Value) :
    Call (Except RequestError Compiled) :=
  match compiler.modeOf mode with
  | .error error => { outcome := .error (.mode error), compiler, events := [] }
  | .ok mode =>
    let call := compiler.compile given mode
    { call with outcome := call.outcome.mapError .compile }

/-- A request for parameter records. What is asked for is looked at before the mode. -/
def requestParameters (compiler : Compiler) (given : Referent) (mode : Option Value) :
    Call (Except RequestError Compiled) :=
  match compiler.requireInput given with
  | .error error => { outcome := .error (.compile error), compiler, events := [] }
  | .ok () => compiler.request given mode

end Compiler

end Schemata
