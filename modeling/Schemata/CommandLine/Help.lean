/-!
The help texts of the program and its commands, laid out for eighty columns.
-/

namespace Schemata.CommandLine

def programName : String := "typedschema"

namespace Help

def lines (texts : List String) : String := String.join (texts.map (· ++ "\n"))

def mainUsage : String := lines ["usage: typedschema [-h] [-v] COMMAND ..."]

def compileUsage : String :=
  lines
    ["usage: typedschema compile [-h] [--dialect \x7bjson-schema,openapi,openapi-3.1\x7d]",
      "                           [--ref] [--indent INDENT]",
      "                           definitions TYPE_REF"]

def listUsage : String := lines ["usage: typedschema list [-h] definitions"]

def main : String :=
  mainUsage ++ lines
    ["",
      "typedschema - compile type definitions to JSON Schema and OpenAPI schemas",
      "",
      "positional arguments:",
      "  COMMAND",
      "    compile      Compile a type reference to a schema",
      "    list         List the types declared in a definition file",
      "",
      "options:",
      "  -h, --help     show this help message and exit",
      "  -v, --verbose  Log compiler decisions to stderr"]

def compile : String :=
  compileUsage ++ lines
    ["",
      "Compile a type reference against a YAML definition file and print the schema",
      "as JSON.",
      "",
      "positional arguments:",
      "  definitions           Path to the YAML definition file",
      "  TYPE_REF              Type reference, e.g. 'Pet' or '[Pet]?'",
      "",
      "options:",
      "  -h, --help            show this help message and exit",
      "  --dialect \x7bjson-schema,openapi,openapi-3.1\x7d",
      "                        Schema dialect to emit (default: json-schema)",
      "  --ref                 Hoist named types into a shared schema table and",
      "                        reference them with $ref",
      "  --indent INDENT       JSON indentation (default: 2)"]

def list : String :=
  listUsage ++ lines
    ["",
      "Print the identifier and kind of every type in a YAML definition file.",
      "",
      "positional arguments:",
      "  definitions  Path to the YAML definition file",
      "",
      "options:",
      "  -h, --help   show this help message and exit"]

end Help

end Schemata.CommandLine
