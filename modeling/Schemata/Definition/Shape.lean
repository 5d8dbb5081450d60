import Schemata.Definition

/-!
Hand-written type objects: records of attributes that nobody has checked. What kind of type one
is follows from the attributes that are there, and an attribute that is missing or unsuitable is
noticed only when it is read.
-/

namespace Schemata

inductive Fault where
  /-- The attribute is not there. -/
  | missing (name : String)
  /-- Its value cannot be used in this place. -/
  | unsuitable
  /-- Reading it comes to no end. -/
  | endless
  deriving DecidableEq

structure Shape where
  attributes : Record Value

namespace Shape

def has (shape : Shape) (name : String) : Bool := Record.has shape.attributes name

/-- The schema is there only as something that can be asked for. -/
def hasSchema (shape : Shape) : Bool :=
  match Record.find? shape.attributes "to_schema" with
  | none | some .null => false
  | some _ => true

/-- The kind whose attributes are all there; the first of several in the order of the tests. -/
def kind? (shape : Shape) : Option Kind :=
  if !shape.has "name" then none
  else if shape.has "parameters" then some .input
  else if shape.has "fields" then some .product
  else if shape.has "values" then some .sum
  else if shape.has "value_type" && shape.has "example" then some .map
  else if shape.has "allowed_types" then some .union
  else if shape.hasSchema then some .scalar
  else none

def read (shape : Shape) (name : String) : Except Fault Value :=
  match Record.find? shape.attributes name with
  | some value => .ok value
  | none => .error (.missing name)

def given? (shape : Shape) (name : String) : Option Value :=
  (Record.find? shape.attributes name).filter Value.isGiven

def members (shape : Shape) (name : String) : Except Fault (List Value) := do
  match (← shape.read name).members? with
  | some values => return values
  | none => throw .unsuitable

/-- The reference that the values of a map share, unless it is null. -/
def valueType? (shape : Shape) : Except Fault (Option Value) := do
  match ← shape.read "value_type" with
  | .null => return none
  | value => return some value

/-- The schema fragment that the object answers when it is asked. -/
def schema (shape : Shape) : Except Fault Value := do
  match ← shape.read "to_schema" with
  | .null => throw .unsuitable
  | value => return value

end Shape

namespace Value

/-- An attribute of a member. Only mappings have attributes. -/
def part (member : Value) (name : String) : Except Fault Value :=
  match (member.entries?.getD []).find? fun (key, _) => key.isText name with
  | some (_, value) => .ok value
  | none => .error (.missing name)

def givenPart? (member : Value) (name : String) : Option Value :=
  match member.part name with
  | .ok value => if value.isGiven then some value else none
  | .error _ => none

end Value

end Schemata
