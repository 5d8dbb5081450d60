import Schemata.CommandLine.Arguments
import Schemata.Compiler
import Schemata.Document
import Schemata.FileTree
import Schemata.Value.Json

/-!
Running the commands of the program. A file is given by what reading it answered, so that nothing
here depends on where files are.
-/

namespace Schemata.CommandLine

inductive Failure where
  | document (error : DocumentError)
  | compile (error : CompileError)

def Failure.message : Failure → String
  | .document error => error.message
  | .compile error => error.message

/-- Why a command ends without a verdict. -/
inductive Breakdown where
  | document (error : DocumentError)
  | compile (error : CompileError)
  /-- Some data has no JSON text. -/
  | notJson (error : Value.JsonError)
  /-- No dialect is given. -/
  | noDialect
  /-- No indentation is given. -/
  | noIndent
  /-- The indentation is beyond all machine words. -/
  | indentTooLarge
  /-- There is no room for the indentation. -/
  | noRoom
  /-- The path is no text. -/
  | notPath
  /-- The path has code points that no path has. -/
  | notEncodable
  /-- No file can have the path. -/
  | notFileName

/-- What a command comes to: its lines of log, and its output or why it failed. -/
structure Report where
  log : List String
  result : Except Failure String

def logLine (source message : String) : String := "DEBUG " ++ source ++ ": " ++ message

def loaderSource : String := "typedschema.definitions.loader"

def compilerSource : String := "typedschema.compiler.schema_compiler"

/-- The text of a file, with every line break as a newline. -/
def newlines : List Char → List Char
  | '\r' :: '\n' :: rest => '\n' :: newlines rest
  | '\r' :: rest => '\n' :: newlines rest
  | c :: rest => c :: newlines rest
  | [] => []

def fileText (path : String) : FileReading → Except DocumentError String
  | .bytes content =>
    match String.fromUTF8? ⟨content.toArray⟩ with
    | some text => .ok (Text.ofChars (newlines text.toList))
    | none => .error .notUnicode
  | .notFound => .error (.notFound path)
  | .refused refusal =>
    .error (.unreadable ("[Errno " ++ toString refusal.number ++ "] " ++ refusal.message ++ ": "
      ++ Text.quoted path))

def loadFile (path : String) (reading : FileReading) : Except DocumentError Catalog := do
  Document.load path (← fileText path reading)

def isVerdict : DocumentError → Bool
  | .notUnicode => false
  | .noValue _ => false
  | _ => true

def loadFailure (error : DocumentError) : Except Breakdown Report :=
  if isVerdict error then .ok ⟨[], .error (.document error)⟩ else .error (.document error)

def loadedLine (path : String) (catalog : Catalog) : String :=
  logLine loaderSource
    ("Loaded " ++ toString catalog.size ++ " type definitions from " ++ path)

/-- What a compilation prints: the schema, and when hoisting also the table. -/
def compileOutput (hoisting : Bool) (compiled : Compiled) (table : Table) : Value :=
  if hoisting then
    .record [("schema", compiled.toValue),
      ("schemas", .record (table.map fun (name, schema) => (name, schema.toValue)))]
  else compiled.toValue

/-- The layout of an indentation. Less than none is none. -/
def layoutOf : Option Int → Except Breakdown Value.Layout
  | none => .error .noIndent
  | some indent =>
    if Int.pow 2 63 ≤ indent || indent < -Int.pow 2 63 then .error .indentTooLarge
    else if Int.pow 2 40 ≤ indent then .error .noRoom
    else .ok (.indented indent.toNat)

def compileReport (options : CompileOptions) (mode : Mode) (log : List String)
    (call : Call (Except CompileError Compiled)) : Except Breakdown Report := do
  match call.outcome with
  | .error (.unusable fault) => throw (.compile (.unusable fault))
  | .error error =>
    if error.isSayable then return ⟨log, .error (.compile error)⟩ else throw (.compile error)
  | .ok compiled =>
    let output := compileOutput options.hoisting compiled (call.compiler.schemasFor mode)
    match output.json (← layoutOf options.indent) with
    | .ok text => return ⟨log, .ok (text ++ "\n")⟩
    | .error error => throw (.notJson error)

def runCompile (options : CompileOptions) (path : String) (reading : FileReading) :
    Except Breakdown Report := do
  match loadFile path reading with
  | .error error => loadFailure error
  | .ok catalog =>
    let some dialect := options.dialect | throw .noDialect
    let mode := if options.hoisting then dialect.union .refSchema else dialect
    let call := (Compiler.new catalog .builtins mode none).compile (.written options.type) mode
    let log := loadedLine path catalog
      :: call.events.map fun event => logLine compilerSource event.message
    compileReport options mode log call

def listLine : String × Entry → String
  | (identifier, entry) => identifier ++ "\t" ++ ((entry.kind?.map Kind.name).getD "") ++ "\n"

def runList (path : String) (reading : FileReading) : Except Breakdown Report :=
  match loadFile path reading with
  | .error error => loadFailure error
  | .ok catalog => .ok ⟨[loadedLine path catalog], .ok (String.join (catalog.entries.map listLine))⟩

namespace Command

def definitions : Command → Value
  | .compile options => options.definitions
  | .list definitions => definitions

def path? (command : Command) : Option String :=
  match command.definitions with
  | .text path => some (FilePath.plain path)
  | _ => none

def run (command : Command) (path : String) (reading : FileReading) : Except Breakdown Report :=
  match command with
  | .compile options => runCompile options path reading
  | .list _ => runList path reading

end Command

def Invocation.run (invocation : Invocation) (read : String → FileReading) :
    Except Breakdown Report :=
  match invocation.command.path? with
  | none => .error .notPath
  | some path =>
    if !FilePath.isEncodable path then .error .notEncodable
    else if !FilePath.isNameable path then .error .notFileName
    else
      (invocation.command.run path (read path)).map fun report =>
        { report with log := if invocation.verbose then report.log else [] }

end Schemata.CommandLine
