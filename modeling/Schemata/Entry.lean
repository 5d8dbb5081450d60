import Schemata.Definition.Shape
import Schemata.Definition.Literal
import Schemata.Name

/-!
What a catalog holds: a checked definition, or a hand-written object. The functions here read
both in one way.
-/

namespace Schemata

inductive Entry where
  | checked (definition : Definition)
  | handwritten (shape : Shape)

namespace Entry

/-- How messages quote a hand-written object. -/
def shapeLiteral : String := "<shape>"

def name? : Entry → Option Value
  | .checked definition => some (.text definition.name)
  | .handwritten shape => Record.find? shape.attributes "name"

/-- The name by which an entry is known; an object without a name is known by its quotation. -/
def name (entry : Entry) : Name :=
  match entry.name? with
  | some value => .ofValue value
  | none => .other "" shapeLiteral

def kind? : Entry → Option Kind
  | .checked definition => some definition.kind
  | .handwritten shape => shape.kind?

/-- The schema fragment of a type that needs no other type: that of a scalar as it is, a text out
of some texts for a sum, any object for a map. -/
def fragment : Entry → Except Fault Value
  | .checked (.scalar _ fragment) => .ok (.record fragment)
  | .checked (.sum _ values) =>
    .ok (.record [("type", .text "string"), ("enum", .texts values)])
  | .checked (.map ..) => .ok (.record [("type", .text "object")])
  | .checked _ => .error (.missing "to_schema")
  | .handwritten shape => shape.schema

def contentType : Entry → Value
  | .checked (.product _ _ _ _ contentType) => .text contentType
  | .checked _ => .text Definition.jsonContentType
  | .handwritten shape =>
    (Record.find? shape.attributes "content_type").getD (.text Definition.jsonContentType)

end Entry

end Schemata
