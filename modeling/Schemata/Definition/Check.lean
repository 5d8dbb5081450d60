import Schemata.Definition
import Schemata.Value.Literal

/-!
Checking plain data against the six kinds of definitions. All findings of a definition are
reported together, each with its place, in the order of the attributes. Attributes that no kind
has are ignored, and members of products and inputs may be written as a mapping.
-/

namespace Schemata

/-- One step of the way to a part of the data. -/
inductive Step where
  | name (name : String)
  | index (index : Int)
  deriving DecidableEq

/-- What can be wrong with a part of the data. -/
inductive Flaw where
  | notObject
  | noKind
  | unknownKind
  | otherKind
  | missing
  | notText
  | notUnicode
  | notList
  | notMapping
  | notMember
  | tooShort
  deriving DecidableEq

def Flaw.code : Flaw → String
  | .notObject => "model_attributes_type"
  | .noKind => "union_tag_not_found"
  | .unknownKind => "union_tag_invalid"
  | .otherKind => "literal_error"
  | .missing => "missing"
  | .notText => "string_type"
  | .notUnicode => "string_unicode"
  | .notList => "list_type"
  | .notMapping => "dict_type"
  | .notMember => "model_type"
  | .tooShort => "too_short"

structure Finding where
  place : List Step
  flaw : Flaw
  deriving DecidableEq

/-- A checked part, or all that was found wrong with it. -/
abbrev Checked (α : Type) := Except (List Finding) α

namespace Checked

def fail (place : List Step) (flaw : Flaw) : Checked α := .error [⟨place, flaw⟩]

/-- Applies a checked function to a checked argument; findings of both are kept, in order. -/
def also (function : Checked (α → β)) (argument : Checked α) : Checked β :=
  match function, argument with
  | .ok f, .ok a => .ok (f a)
  | .ok _, .error later => .error later
  | .error earlier, .ok _ => .error earlier
  | .error earlier, .error later => .error (earlier ++ later)

def each (check : List Step → Value → Checked α) (place : List Step) : List Value → Checked (List α) :=
  go 0
where
  go (index : Nat) : List Value → Checked (List α)
    | [] => .ok []
    | item :: rest =>
      also ((check (place ++ [.index index]) item).map List.cons) (go (index + 1) rest)

end Checked

namespace Check

open Checked

def text (place : List Step) : Value → Checked String
  | .text value => .ok value
  | .bytes value =>
    match String.fromUTF8? ⟨value.toArray⟩ with
    | some decoded => .ok (Text.ofChars decoded.toList)
    | none => fail place .notUnicode
  | _ => fail place .notText

def sequence (place : List Step) (value : Value) : Checked (List Value) :=
  match value.untied with
  | .list items => .ok items
  | .pair first second => .ok [first, second]
  | .set members => .ok members
  | _ => fail place .notList

def listOf (check : List Step → Value → Checked α) (place : List Step) (value : Value) :
    Checked (List α) :=
  match sequence place value with
  | .ok items => each check place items
  | .error findings => .error findings

def someOf (check : List Step → Value → Checked α) (place : List Step) (value : Value) :
    Checked (List α) :=
  match listOf check place value with
  | .ok [] => fail place .tooShort
  | other => other

def optional (check : List Step → Value → Checked α) (place : List Step) :
    Value → Checked (Option α)
  | .null => .ok none
  | value => (check place value).map some

/-- A type reference as written: a text or a list. What it says is not looked at here. -/
def reference (place : List Step) (value : Value) : Checked Value :=
  match text (place ++ [.name "str"]) value, sequence (place ++ [.name "list[any]"]) value with
  | .ok written, _ => .ok (.text written)
  | _, .ok items => .ok (.list items)
  | .error first, .error second => .error (first ++ second)

/-- What stands for a whole number of too many digits. -/
def unwritable : String := "<unprintable int object>"

/-- The step to the value under a key. -/
def keyStep : Value → Step
  | .text value => .name value
  | .bool value => .index (if value then 1 else 0)
  | .int value =>
    if -(Int.pow 2 63) ≤ value ∧ value < Int.pow 2 63 then .index value
    else .name (if Text.isWritable value then toString value else unwritable)
  | value => .name value.literal

/-- A mapping whose keys are texts. -/
def entries (place : List Step) : List (Value × Value) → Checked (Record Value)
  | [] => .ok []
  | (key, value) :: rest =>
    also ((text (place ++ [keyStep key, .name "[key]"]) key).map fun name => List.cons (name, value))
      (entries place rest)

def mapping (place : List Step) (value : Value) : Checked (Record Value) :=
  match value.entries? with
  | some members => (entries place members).map Record.ofList
  | none => fail place .notMapping

def required (check : List Step → Value → Checked α) (place : List Step)
    (data : List (Value × Value)) (name : String) : Checked α :=
  match Value.find? data name with
  | some value => check (place ++ [.name name]) value
  | none => fail (place ++ [.name name]) .missing

def defaulted (check : List Step → Value → Checked α) (fallback : α) (place : List Step)
    (data : List (Value × Value)) (name : String) : Checked α :=
  match Value.find? data name with
  | some value => check (place ++ [.name name]) value
  | none => .ok fallback

/-- A member written as a mapping entry: its details, or only its type. -/
def memberOfEntry (entry : Value × Value) : Value :=
  let (name, value) := entry
  match value.entries? with
  | some details => .map (Value.ofEntries ((.text "name", name) :: details))
  | none => .map [(.text "name", name), (.text "type", value)]

/-- Members written as a mapping become a list of members. -/
def expandMembers (value : Value) : Value :=
  match value.entries? with
  | some members => .list (members.map memberOfEntry)
  | none => value

def field (place : List Step) (value : Value) : Checked Field :=
  match value.entries? with
  | some data =>
    also (also (also (also (also (.ok Field.mk)
      (required text place data "name"))
      (required reference place data "type"))
      (defaulted (optional text) none place data "title"))
      (defaulted (optional text) none place data "description"))
      (defaulted (optional (listOf text)) none place data "enum")
  | none => fail place .notMember

def parameter (place : List Step) (value : Value) : Checked Parameter :=
  match value.entries? with
  | some data =>
    also (also (also (.ok Parameter.mk)
      (required text place data "name"))
      (required reference place data "type"))
      (defaulted (optional text) none place data "description")
  | none => fail place .notMember

def members (check : List Step → Value → Checked α) (place : List Step) (value : Value) :
    Checked (List α) :=
  listOf check place (expandMembers value)

def attributes (kind : Kind) (place : List Step) (data : List (Value × Value)) :
    Checked Definition :=
  match kind with
  | .scalar =>
    also (also (.ok Definition.scalar)
      (required text place data "name"))
      (required mapping place data "fragment")
  | .product =>
    also (also (also (also (also (.ok Definition.product)
      (required text place data "name"))
      (defaulted (members field) [] place data "fields"))
      (defaulted (optional text) none place data "title"))
      (defaulted (optional text) none place data "description"))
      (defaulted text Definition.jsonContentType place data "content_type")
  | .sum =>
    also (also (.ok Definition.sum)
      (required text place data "name"))
      (required (someOf text) place data "values")
  | .map =>
    also (also (also (.ok Definition.map)
      (required text place data "name"))
      (defaulted (optional reference) none place data "value_type"))
      (defaulted mapping [] place data "example")
  | .union =>
    also (also (.ok Definition.union)
      (required text place data "name"))
      (required (someOf reference) place data "allowed_types")
  | .input =>
    also (also (.ok Definition.input)
      (required text place data "name"))
      (defaulted (members parameter) [] place data "parameters")

/-- A kind must be written by its exact name. -/
def kindOf : Value → Option Kind
  | .text name => Kind.ofName? name
  | _ => none

end Check

namespace Definition

def check (value : Value) : Checked Definition :=
  match value.entries? with
  | some data =>
    match Value.find? data "kind" with
    | none => .fail [] .noKind
    | some value =>
      match Check.kindOf value with
      | none => .fail [] .unknownKind
      | some kind => Check.attributes kind [.name kind.name] data
  | none => .fail [] .notObject

/-- Checks data that can only be a scalar; the kind may be left out. -/
def checkScalar (value : Value) : Checked Definition :=
  match value.entries? with
  | some data =>
    let kind : Checked Unit :=
      match Value.find? data "kind" with
      | some value => if value.isText Kind.scalar.name then .ok () else .fail [.name "kind"] .otherKind
      | none => .ok ()
    .also (kind.map fun _ definition => definition) (Check.attributes .scalar [] data)
  | none => .fail [] .notMember

end Definition

end Schemata
