import Schemata.Value

/-!
Definitions of named types, of six kinds, as plain immutable data.
-/

namespace Schemata

inductive Kind where
  | scalar | product | sum | map | union | input
  deriving DecidableEq

namespace Kind

def name : Kind → String
  | .scalar => "scalar"
  | .product => "product"
  | .sum => "sum"
  | .map => "map"
  | .union => "union"
  | .input => "input"

def all : List Kind := [.scalar, .product, .sum, .map, .union, .input]

def ofName? (name : String) : Option Kind := all.find? fun kind => kind.name = name

end Kind

/-- A field of a product. The type is a reference as it was written. Given alternatives take the
place of whatever the type compiles to. -/
structure Field where
  name : String
  type : Value
  title : Option String
  description : Option String
  choices : Option (List String)

structure Parameter where
  name : String
  type : Value
  description : Option String

inductive Definition where
  /-- A type with a fixed schema fragment. -/
  | scalar (name : String) (fragment : Record Value)
  /-- An object with named fields in order. -/
  | product (name : String) (fields : List Field) (title description : Option String)
    (contentType : String)
  /-- One of some literal texts. -/
  | sum (name : String) (values : List String)
  /-- An object with free keys, whose values may share one type. -/
  | map (name : String) (valueType : Option Value) (sample : Record Value)
  /-- Any one of some types. -/
  | union (name : String) (alternatives : List Value)
  /-- The parameters of an operation. -/
  | input (name : String) (parameters : List Parameter)

namespace Definition

def jsonContentType : String := "application/json"

def name : Definition → String
  | .scalar name .. => name
  | .product name .. => name
  | .sum name .. => name
  | .map name .. => name
  | .union name .. => name
  | .input name .. => name

def kind : Definition → Kind
  | .scalar .. => .scalar
  | .product .. => .product
  | .sum .. => .sum
  | .map .. => .map
  | .union .. => .union
  | .input .. => .input

end Definition

namespace Field

def toRecord (field : Field) : Record Value :=
  [("name", .text field.name), ("type", field.type),
    ("title", .ofOption .text field.title),
    ("description", .ofOption .text field.description),
    ("enum", .ofOption .texts field.choices)]

end Field

namespace Parameter

def toRecord (parameter : Parameter) : Record Value :=
  [("name", .text parameter.name), ("type", parameter.type),
    ("description", .ofOption .text parameter.description)]

end Parameter

namespace Definition

/-- A definition written out as data, with all that may be left out. -/
def toRecord (definition : Definition) : Record Value :=
  ("kind", .text definition.kind.name) :: ("name", .text definition.name) ::
    match definition with
    | .scalar _ fragment => [("fragment", .record fragment)]
    | .product _ fields title description contentType =>
      [("fields", .list (fields.map fun field => .record field.toRecord)),
        ("title", .ofOption .text title), ("description", .ofOption .text description),
        ("content_type", .text contentType)]
    | .sum _ values => [("values", .texts values)]
    | .map _ valueType sample =>
      [("value_type", valueType.getD .null), ("example", .record sample)]
    | .union _ alternatives => [("allowed_types", .list alternatives)]
    | .input _ parameters =>
      [("parameters", .list (parameters.map fun parameter => .record parameter.toRecord))]

def toValue (definition : Definition) : Value := .record definition.toRecord

end Definition

end Schemata
