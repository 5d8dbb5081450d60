import Schemata.Entry
import Schemata.TypeSpec

/-!
The catalog: entries under distinct identifiers, in the order of registration. Names are distinct
too, since compiled schemas are kept under the names; `owners` says which identifier has a name.
-/

namespace Schemata

structure Catalog where
  entries : Record Entry
  owners : List (Name × String)

inductive CatalogError where
  | invalidIdentifier (identifier : String)
  | duplicateIdentifier (identifier : String)
  | duplicateName (name : Name) (owner : String)
  /-- The entry has no name, or one that cannot be used in its place. -/
  | badName (fault : Fault)
  deriving DecidableEq

def CatalogError.message : CatalogError → String
  | .invalidIdentifier identifier => "Invalid type identifier '" ++ identifier ++ "'"
  | .duplicateIdentifier identifier => "Duplicate type identifier '" ++ identifier ++ "'"
  | .duplicateName name owner =>
    "Duplicate type name '" ++ name.shown ++ "' (already used by '" ++ owner ++ "')"
  | .badName _ => ""

namespace Catalog

def empty : Catalog := ⟨[], []⟩

/-- The identifier under which an entry is registered: the given one, or else its name. -/
def identifierFor (entry : Entry) : Option String → Except CatalogError String
  | some identifier => .ok identifier
  | none =>
    match entry.name? with
    | none => .error (.badName (.missing "name"))
    | some (.text name) => .ok name
    | some _ => .error (.badName .unsuitable)

/-- The name by which an entry is known, which must be something that names can be. -/
def nameOf (entry : Entry) : Except CatalogError Name :=
  match entry.name? with
  | none => .error (.badName (.missing "name"))
  | some value => if value.isKey then .ok (.ofValue value) else .error (.badName .unsuitable)

def owner? (catalog : Catalog) (name : Name) : Option String :=
  (catalog.owners.find? fun (known, _) => known.same name).map Prod.snd

def register (catalog : Catalog) (identifier : Option String) (entry : Entry) :
    Except CatalogError Catalog := do
  let identifier ← identifierFor entry identifier
  if !TypeSpec.isName identifier.toList then throw (.invalidIdentifier identifier)
  if Record.has catalog.entries identifier then throw (.duplicateIdentifier identifier)
  let name ← nameOf entry
  if let some owner := catalog.owner? name then throw (.duplicateName name owner)
  return {
    entries := catalog.entries ++ [(identifier, entry)]
    owners := catalog.owners ++ [(name, identifier)] }

def get? (catalog : Catalog) (identifier : String) : Option Entry :=
  Record.find? catalog.entries identifier

def contains (catalog : Catalog) (identifier : String) : Bool :=
  Record.has catalog.entries identifier

def identifiers (catalog : Catalog) : List String := Record.names catalog.entries

def toList (catalog : Catalog) : List Entry := catalog.entries.map Prod.snd

def size (catalog : Catalog) : Nat := catalog.entries.length

end Catalog

end Schemata
