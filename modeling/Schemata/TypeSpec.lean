/-!
Type references as the compiler sees them: a name or an array of another reference, with the
marks of this occurrence. `render` writes the one canonical text of a reference.
-/

namespace Schemata

/-- A decoded type reference. `required` belongs to the field or parameter that holds the
reference, `nullable` to this occurrence of the type. -/
inductive TypeSpec where
  | named (name : String) (required nullable : Bool)
  | array (element : TypeSpec) (required nullable : Bool)
  deriving DecidableEq, Inhabited

namespace TypeSpec

def required : TypeSpec → Bool
  | .named _ required _ => required
  | .array _ required _ => required

def nullable : TypeSpec → Bool
  | .named _ _ nullable => nullable
  | .array _ _ nullable => nullable

def isArray : TypeSpec → Bool
  | .named .. => false
  | .array .. => true

/-- The element of an array. -/
def element? : TypeSpec → Option TypeSpec
  | .named .. => none
  | .array element _ _ => some element

def name? : TypeSpec → Option String
  | .named name _ _ => some name
  | .array .. => none

/-- The same reference without the mark of its field. -/
def optional : TypeSpec → TypeSpec
  | .named name _ nullable => .named name false nullable
  | .array element _ nullable => .array element false nullable

/-- Puts `!` before and `?` behind a text. -/
def marked (required nullable : Bool) (text : String) : String :=
  (if required then "!" else "") ++ text ++ (if nullable then "?" else "")

/-- The canonical text: an array is its element in brackets. -/
def render : TypeSpec → String
  | .named name required nullable => marked required nullable name
  | .array element required nullable => marked required nullable ("[" ++ render element ++ "]")

/-- A reference from its parts: an array if there is an element. A missing name is written
`None`. -/
def ofParts (name : Option String) (element : Option TypeSpec) (required nullable : Bool) :
    TypeSpec :=
  match element with
  | some element => .array element required nullable
  | none => .named (name.getD "None") required nullable

def isNameStart (c : Char) : Bool := c.isAlpha || c = '_'

/-- Characters that names go on with. -/
def isNameRest (c : Char) : Bool := c.isAlphanum || c = '_' || c = '.'

/-- Names of types: a letter or an underscore, then letters, digits, underscores and points, all
in ASCII. -/
def isName : List Char → Bool
  | [] => false
  | c :: rest => isNameStart c && rest.all isNameRest

end TypeSpec

end Schemata
