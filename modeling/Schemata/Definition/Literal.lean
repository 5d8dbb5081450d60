import Schemata.Definition
import Schemata.Value.Literal

/-!
How messages quote a definition: the name of its class with every attribute in order.
-/

namespace Schemata

def classLiteral (className : String) (attributes : List (String × String)) : String :=
  className ++ "(" ++ ", ".intercalate (attributes.map fun (name, text) => name ++ "=" ++ text)
    ++ ")"

def attributeLiterals (record : Record Value) : List (String × String) :=
  record.map fun (name, value) => (name, value.literal)

def membersLiteral (members : List String) : String := "[" ++ ", ".intercalate members ++ "]"

def Field.literal (field : Field) : String :=
  classLiteral "FieldDef" (attributeLiterals field.toRecord)

def Parameter.literal (parameter : Parameter) : String :=
  classLiteral "ParameterDef" (attributeLiterals parameter.toRecord)

namespace Definition

def className : Kind → String
  | .scalar => "ScalarType"
  | .product => "ProductType"
  | .sum => "SumType"
  | .map => "MapType"
  | .union => "UnionType"
  | .input => "InputType"

def ownLiterals : Definition → List (String × String)
  | .scalar _ fragment => attributeLiterals [("fragment", .record fragment)]
  | .product _ fields title description contentType =>
    ("fields", membersLiteral (fields.map Field.literal)) ::
      attributeLiterals [("title", .ofOption .text title),
        ("description", .ofOption .text description), ("content_type", .text contentType)]
  | .sum _ values => attributeLiterals [("values", .texts values)]
  | .map _ valueType sample =>
    attributeLiterals [("value_type", valueType.getD .null), ("example", .record sample)]
  | .union _ alternatives => attributeLiterals [("allowed_types", .list alternatives)]
  | .input _ parameters => [("parameters", membersLiteral (parameters.map Parameter.literal))]

def literal (definition : Definition) : String :=
  classLiteral (className definition.kind) <|
    attributeLiterals [("kind", .text definition.kind.name), ("name", .text definition.name)]
      ++ definition.ownLiterals

end Definition

end Schemata
