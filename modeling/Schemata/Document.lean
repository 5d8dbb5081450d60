import Schemata.Catalog
import Schemata.Definition.Check
import Schemata.Yaml.Content

/-!
Definition documents: a mapping with a list of types, each the data of a definition with an
optional identifier of its own. Either all types are registered, in order, or none.
-/

namespace Schemata

/-- Why a document gives no catalog. `label` says which document. -/
inductive DocumentError where
  | notFound (path : String)
  | unreadable (reason : String)
  | notUnicode
  | notYaml (label : String)
  /-- A part of the document that denotes nothing. -/
  | noValue (trouble : Yaml.Trouble)
  | notMapping (label : String)
  | noTypes (label : String)
  | typesNotList (label : String)
  | entryNotMapping (label : String) (index : Nat)
  | identifierNotText (label : String) (index : Nat)
  | invalid (label : String) (index : Nat) (findings : List Finding)
  | conflict (label : String) (index : Nat) (error : CatalogError)

namespace DocumentError

def entryLabel (label : String) (index : Nat) : String :=
  label ++ ": types[" ++ toString index ++ "]"

def message : DocumentError → String
  | .notFound path => "Definition file not found: " ++ path
  | .unreadable reason => "Cannot read definition file: " ++ reason
  | .notUnicode => ""
  | .notYaml label => "Invalid YAML in " ++ label
  | .noValue _ => ""
  | .notMapping label => label ++ ": definition file must be a YAML mapping"
  | .noTypes label => label ++ ": missing required field 'types'"
  | .typesNotList label => label ++ ": 'types' must be a list"
  | .entryNotMapping label index => entryLabel label index ++ " must be a YAML mapping"
  | .identifierNotText label index => entryLabel label index ++ ": 'identifier' must be a string"
  | .invalid label index _ => entryLabel label index ++ ": invalid type definition"
  | .conflict label index error => entryLabel label index ++ ": " ++ error.message

end DocumentError

namespace Document

def entry (label : String) (index : Nat) (value : Value) :
    Except DocumentError (Option String × Definition) := do
  let some data := value.entries? | throw (.entryNotMapping label index)
  let identifier ←
    match Value.find? data "identifier" with
    | none | some .null => pure none
    | some (.text identifier) => pure (some identifier)
    | some _ => throw (.identifierNotText label index)
  match Definition.check (.map (Value.without data "identifier")) with
  | .ok definition => return (identifier, definition)
  | .error findings => throw (.invalid label index findings)

def register (label : String) : Nat → Catalog → List Value → Except DocumentError Catalog
  | _, catalog, [] => .ok catalog
  | index, catalog, value :: rest => do
    let (identifier, definition) ← entry label index value
    match catalog.register identifier (.checked definition) with
    | .error error => throw (.conflict label index error)
    | .ok catalog => register label (index + 1) catalog rest

def catalogOf (label : String) (value : Value) : Except DocumentError Catalog := do
  let some data := value.entries? | throw (.notMapping label)
  let some types := Value.find? data "types" | throw (.noTypes label)
  let some types := types.items? | throw (.typesNotList label)
  register label 0 .empty types

def load (label text : String) : Except DocumentError Catalog :=
  match Yaml.read text with
  | .error .malformed => .error (.notYaml label)
  | .error trouble => .error (.noValue trouble)
  | .ok value => catalogOf label value

end Document

end Schemata
