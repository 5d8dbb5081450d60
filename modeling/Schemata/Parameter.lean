import Schemata.Definition
import Schemata.TypeSpec.Reader

/-!
Parameters of operations. The type of a parameter says where the parameter is found, before its
first colon, and what it is.
-/

namespace Schemata

namespace Parameter

def defaultLocation : String := "query"

def locations : List String := ["query", "path", "body", "header", "cookie", "formData"]

/-- Splits a type at its first colon into the location and the reference. -/
def splitLocation : Value → Except Misreading (String × Value)
  | .text written =>
    let chars := written.toList
    if chars.contains ':' then
      let location := String.ofList (Text.strip (chars.takeWhile (· ≠ ':')))
      let rest := String.ofList ((chars.dropWhile (· ≠ ':')).drop 1)
      if locations.contains location then .ok (location, .text rest)
      else .error ⟨.text written, .unknownLocation location⟩
    else .ok (defaultLocation, .text written)
  | value => .ok (defaultLocation, value)

def readType (type : Value) : Except Misreading (String × TypeSpec) := do
  let (location, rest) ← splitLocation type
  let spec ← TypeSpec.read true rest
  return (location, spec)

end Parameter

/-- A described parameter of an operation. The name is a text unless it was written by hand. -/
structure ParameterRecord (α : Type) where
  name : Value
  location : String
  required : Bool
  schema : α
  description : Option Value

namespace ParameterRecord

def of (parameter : Parameter) (location : String) (spec : TypeSpec) (schema : α) :
    ParameterRecord α where
  name := .text parameter.name
  location
  required := spec.required
  schema
  description := (parameter.description.filter (· ≠ "")).map .text

def toValue (schemaValue : α → Value) (parameter : ParameterRecord α) : Value :=
  .record <|
    [("name", parameter.name), ("in", .text parameter.location),
      ("required", .bool parameter.required), ("schema", schemaValue parameter.schema)]
      ++ match parameter.description with
        | some description => [("description", description)]
        | none => []

end ParameterRecord

end Schemata
