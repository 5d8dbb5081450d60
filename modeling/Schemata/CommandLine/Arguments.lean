import Schemata.CommandLine.Grammar
import Schemata.CommandLine.Help
import Schemata.Mode
import Schemata.Value

/-!
The arguments of the program: what is asked for, or which help or complaint answers them.
-/

namespace Schemata.CommandLine

/-- What to compile, and how to print it. The operands are texts as a rule, and the dialect and the
indentation are there unless a separator was given in their place. -/
structure CompileOptions where
  definitions : Value
  type : Value
  dialect : Option Mode
  hoisting : Bool
  indent : Option Int

inductive Command where
  | compile (options : CompileOptions)
  | list (definitions : Value)

/-- A complaint about the arguments: the usage of the command, its name, and what is wrong. -/
structure Complaint where
  usage : String
  program : String
  message : String

def Complaint.line (complaint : Complaint) : String :=
  complaint.program ++ ": error: " ++ complaint.message

inductive Stop where
  | help (text : String)
  | complaint (complaint : Complaint)

structure Invocation where
  verbose : Bool
  command : Command

namespace Arguments

def helpSwitch : Switch := ⟨["-h", "--help"], false⟩

def verboseSwitch : Switch := ⟨["-v", "--verbose"], false⟩

def dialectSwitch : Switch := ⟨["--dialect"], true⟩

def refSwitch : Switch := ⟨["--ref"], false⟩

def indentSwitch : Switch := ⟨["--indent"], true⟩

def mainGrammar : Grammar := ⟨[helpSwitch, verboseSwitch], [.command]⟩

def compileGrammar : Grammar :=
  ⟨[helpSwitch, dialectSwitch, refSwitch, indentSwitch], [.one, .one]⟩

def listGrammar : Grammar := ⟨[helpSwitch], [.one]⟩

def dialects : List (String × Mode) :=
  [("json-schema", .jsonSchema), ("openapi", .openApi),
    ("openapi-3.1", .union .openApi .openApi31)]

def notChoice (subject value : String) (choices : List String) : String :=
  "argument " ++ subject ++ ": invalid choice: " ++ Text.quoted value ++ " (choose from "
    ++ ", ".intercalate (choices.map Text.quoted) ++ ")"

/-- An operand as data: a text, unless it got no argument or several. -/
def operandValue : List String → Value
  | [text] => .text text
  | texts => .texts texts

/-- The options of a compilation that were given so far. -/
structure CompileGiven where
  operands : List Value
  dialect : Option Mode
  hoisting : Bool
  indent : Option Int

def complain (usage program message : String) : Except Stop α :=
  .error (.complaint ⟨usage, program, message⟩)

def compileName : String := programName ++ " compile"

def listName : String := programName ++ " list"

def dialectOf : List String → Except Stop (Option Mode)
  | [] => .ok none
  | name :: _ =>
    match dialects.lookup name with
    | some dialect => .ok (some dialect)
    | none =>
      complain Help.compileUsage compileName
        (notChoice "--dialect" name (dialects.map Prod.fst))

def indentOf : List String → Except Stop (Option Int)
  | [] => .ok none
  | text :: _ =>
    match (Text.chars? text).bind (Text.int? 10) with
    | some indent => .ok (some indent)
    | none =>
      complain Help.compileUsage compileName
        (indentSwitch.mistake ("invalid int value: " ++ Text.quoted text))

def compileAction (given : CompileGiven) : Action → Except Stop CompileGiven
  | .operand texts => .ok { given with operands := given.operands ++ [operandValue texts] }
  | .switch switch texts => do
    if switch.names = helpSwitch.names then throw (.help Help.compile)
    else if switch.names = dialectSwitch.names then
      return { given with dialect := ← dialectOf texts }
    else if switch.names = refSwitch.names then return { given with hoisting := true }
    else return { given with indent := ← indentOf texts }

def missing (names : List String) : String :=
  "the following arguments are required: " ++ ", ".intercalate names

/-- Reads the arguments of a compilation; arguments that nothing takes are returned. -/
def readCompile (arguments : List String) : Except Stop (Command × List String) := do
  let reading := compileGrammar.read arguments
  let given ← reading.actions.foldlM compileAction ⟨[], some .jsonSchema, false, some 2⟩
  match reading.ending with
  | .error message => complain Help.compileUsage compileName message
  | .ok extras =>
    match given.operands with
    | [definitions, type] =>
      return (.compile ⟨definitions, type, given.dialect, given.hoisting, given.indent⟩, extras)
    | operands =>
      complain Help.compileUsage compileName
        (missing (["definitions", "TYPE_REF"].drop operands.length))

def readList (arguments : List String) : Except Stop (Command × List String) := do
  let reading := listGrammar.read arguments
  let operands ← reading.actions.foldlM (fun (operands : List Value) action =>
    match action with
    | .operand texts => Except.ok (operands ++ [operandValue texts])
    | .switch .. => .error (Stop.help Help.list)) []
  match reading.ending with
  | .error message => complain Help.listUsage listName message
  | .ok extras =>
    match operands with
    | definitions :: _ => return (.list definitions, extras)
    | [] => complain Help.listUsage listName (missing ["definitions"])

structure MainGiven where
  verbose : Bool
  command : Option Command
  extras : List String

def mainAction (given : MainGiven) : Action → Except Stop MainGiven
  | .switch switch _ =>
    if switch.names = helpSwitch.names then .error (.help Help.main)
    else .ok { given with verbose := true }
  | .operand texts => do
    let name := texts.headD ""
    let (command, extras) ←
      if name = "compile" then readCompile (texts.drop 1)
      else if name = "list" then readList (texts.drop 1)
      else
        complain Help.mainUsage programName (notChoice "COMMAND" name ["compile", "list"])
    return { given with command := some command, extras }

/-- Reads the arguments of the program. Without a command the help is the answer. -/
def read (arguments : List String) : Except Stop Invocation := do
  let reading := mainGrammar.read arguments
  let given ← reading.actions.foldlM mainAction ⟨false, none, []⟩
  match reading.ending with
  | .error message => complain Help.mainUsage programName message
  | .ok extras =>
    match extras ++ given.extras, given.command with
    | [], some command => return ⟨given.verbose, command⟩
    | [], none => throw (.help Help.main)
    | extras, _ =>
      complain Help.mainUsage programName ("unrecognized arguments: " ++ " ".intercalate extras)

end Arguments

end Schemata.CommandLine
