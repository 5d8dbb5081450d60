import Schemata.Value

/-!
The registry of primitive types: names with the schema fragments they stand for, which are
mappings as a rule. A name that is registered again keeps its place.
-/

namespace Schemata

structure Registry where
  fragments : Record Value

namespace Registry

def empty : Registry := ⟨[]⟩

def datePattern : String := "^\\d\x7b4\x7d-\\d\x7b2\x7d-\\d\x7b2\x7d$"

def timePattern : String := "^\\d\x7b2\x7d:\\d\x7b2\x7d:\\d\x7b2\x7d$"

def timestampPattern : String :=
  "^\\d\x7b4\x7d-\\d\x7b2\x7d-\\d\x7b2\x7d \\d\x7b2\x7d:\\d\x7b2\x7d:\\d\x7b2\x7d$"

/-- The primitives that every new registry starts with. -/
def builtins : Registry where
  fragments :=
    [("integer", .record [("type", .text "integer")]),
      ("number", .record [("type", .text "number")]),
      ("string", .record [("type", .text "string")]),
      ("boolean", .record [("type", .text "boolean")]),
      ("binary", .record [("type", .text "string"), ("format", .text "binary")]),
      ("dict", .record [("type", .text "object")]),
      ("date", .record [("type", .text "string"), ("format", .text "date"),
        ("pattern", .text datePattern)]),
      ("time", .record [("type", .text "string"), ("pattern", .text timePattern)]),
      ("timestamp", .record [("type", .text "string"), ("format", .text "timestamp"),
        ("pattern", .text timestampPattern)])]

def register (registry : Registry) (name : String) (fragment : Value) : Registry :=
  ⟨Record.set registry.fragments name fragment⟩

def get? (registry : Registry) (name : String) : Option Value :=
  Record.find? registry.fragments name

def contains (registry : Registry) (name : String) : Bool := Record.has registry.fragments name

def names (registry : Registry) : List String := Record.names registry.fragments

end Registry

end Schemata
