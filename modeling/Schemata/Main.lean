import Schemata.CommandLine.Run

/-!
The program: reads the arguments and the definition file, and prints what the command comes to.
-/

open Schemata CommandLine

namespace Schemata.Main

/-- A text as the terminal shows it: surrogates by their numbers. -/
def shown (text : String) : String :=
  String.ofList ((Text.codePoints text).flatMap fun
    | .char c => [c]
    | .surrogate index =>
      '\\' :: 'u' :: Text.hexDigits 4 (Text.CodePoint.surrogate index).number)

def readFile (path : String) : IO FileReading := do
  try
    let content ← IO.FS.readBinFile (shown path)
    return .bytes content.toList
  catch
    | .noFileOrDirectory .. => return .notFound
    | .inappropriateType _ code _ =>
      let isDirectory := code.toNat = Refusal.isDirectory.number
      return .refused (if isDirectory then .isDirectory else .notDirectory)
    | .invalidArgument .. => return .refused .nameTooLong
    | _ => return .refused .notPermitted

/-- Prints a report; the exit code says whether the command failed. -/
def print (report : Report) : IO UInt32 := do
  for line in report.log do IO.eprintln (shown line)
  match report.result with
  | .ok output =>
    IO.print (shown output)
    return 0
  | .error failure =>
    IO.eprintln (shown ("Error: " ++ failure.message))
    return 1

end Schemata.Main

def main (arguments : List String) : IO UInt32 := do
  match Arguments.read (arguments.map fun argument => Text.ofChars argument.toList) with
  | .error (.help text) =>
    IO.print text
    return 0
  | .error (.complaint complaint) =>
    IO.eprint complaint.usage
    IO.eprintln (Schemata.Main.shown complaint.line)
    return 2
  | .ok invocation =>
    let path := invocation.command.path?.getD "."
    let reading ← Schemata.Main.readFile path
    match invocation.run fun _ => reading with
    | .ok report => Schemata.Main.print report
    | .error _ =>
      IO.eprintln "The definition file holds data that cannot be used."
      return 1
