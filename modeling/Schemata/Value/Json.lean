import Schemata.Value
import Schemata.Number.Shortest
import Schemata.Text.Quoted

/-!
JSON text of values, in ASCII: other characters are escaped in units of sixteen bits. Dates,
bytes and sets have no JSON text, nor has a collection that holds itself.
-/

namespace Schemata.Value

open Schemata.Text

def unitEscape (unit : Nat) : List Char := '\\' :: 'u' :: hexDigits 4 unit

def jsonChar (c : Char) : List Char :=
  if c = '"' then ['\\', '"']
  else if c = '\\' then ['\\', '\\']
  else if c = '\n' then ['\\', 'n']
  else if c = '\r' then ['\\', 'r']
  else if c = '\t' then ['\\', 't']
  else if c = '\x08' then ['\\', 'b']
  else if c = '\x0c' then ['\\', 'f']
  else if 0x20 ≤ c.toNat && c.toNat < 0x7F then [c]
  else if c.toNat < 0x10000 then unitEscape c.toNat
  else
    let rest := c.toNat - 0x10000
    unitEscape (0xD800 + rest / 0x400) ++ unitEscape (0xDC00 + rest % 0x400)

def jsonPoint : CodePoint → List Char
  | .char c => jsonChar c
  | .surrogate index => unitEscape (CodePoint.surrogate index).number

def jsonString (text : String) : String :=
  String.ofList ('"' :: (codePoints text).flatMap jsonPoint ++ ['"'])

inductive JsonError where
  /-- A part is of a sort that JSON does not know. -/
  | noForm
  /-- A whole number has too many digits. -/
  | tooLong
  /-- A collection holds itself. -/
  | endless
  deriving DecidableEq

def jsonInt (value : Int) : Except JsonError String :=
  if Text.isWritable value then .ok (toString value) else .error .tooLong

/-- The name under which a key is written. A date, a collection and bytes name nothing. -/
def jsonName : Value → Except JsonError String
  | .null => .ok "null"
  | .bool value => .ok (if value then "true" else "false")
  | .int value => jsonInt value
  | .float value => .ok (value.textWith "NaN" "Infinity")
  | .text value => .ok value
  | _ => .error .noForm

/-- How the parts of a collection are set apart: on one line, or each on its own line, indented
by `width` for every level. -/
inductive Layout where
  | line
  | indented (width : Nat)

namespace Layout

/-- What comes before a part at a depth. -/
def lead (layout : Layout) (depth : Nat) : String :=
  match layout with
  | .line => ""
  | .indented width => "\n" ++ String.ofList (List.replicate (width * depth) ' ')

def separator : Layout → String
  | .line => ", "
  | .indented _ => ","

/-- A collection of written parts between two marks. An empty one takes no line of its own. -/
def enclose (layout : Layout) (depth : Nat) (opening closing : String) (parts : List String) :
    String :=
  if parts.isEmpty then opening ++ closing
  else
    opening ++ layout.separator.intercalate (parts.map (layout.lead (depth + 1) ++ ·))
      ++ layout.lead depth ++ closing

end Layout

mutual

/-- The JSON text of a value at a depth, inside the collections of some marks. -/
def jsonWithin (layout : Layout) (around : List Nat) (depth : Nat) :
    Value → Except JsonError String
  | .null => .ok "null"
  | .bool value => .ok (if value then "true" else "false")
  | .int value => jsonInt value
  | .float value => .ok (value.textWith "NaN" "Infinity")
  | .text value => .ok (jsonString value)
  | .list items => do
    return layout.enclose depth "[" "]" (← jsonItems layout around (depth + 1) items)
  | .pair first second => do
    let first ← jsonWithin layout around (depth + 1) first
    return layout.enclose depth "[" "]" [first, ← jsonWithin layout around (depth + 1) second]
  | .map entries => do
    return layout.enclose depth "\x7b" "\x7d" (← jsonEntries layout around (depth + 1) entries)
  | .knot mark collection =>
    if around.contains mark then .error .endless
    else jsonWithin layout (mark :: around) depth collection
  | .again .. => .error .endless
  | _ => .error .noForm

def jsonItems (layout : Layout) (around : List Nat) (depth : Nat) :
    List Value → Except JsonError (List String)
  | [] => .ok []
  | item :: rest => do
    let head ← jsonWithin layout around depth item
    return head :: (← jsonItems layout around depth rest)

def jsonEntries (layout : Layout) (around : List Nat) (depth : Nat) :
    List (Value × Value) → Except JsonError (List String)
  | [] => .ok []
  | (key, value) :: rest => do
    let name ← jsonName key
    let body ← jsonWithin layout around depth value
    return (jsonString name ++ ": " ++ body) :: (← jsonEntries layout around depth rest)

end

def json (layout : Layout) (value : Value) : Except JsonError String :=
  jsonWithin layout [] 0 value

end Schemata.Value
