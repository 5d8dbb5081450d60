import Schemata.Catalog
import Schemata.Registry
import Schemata.Compile.Error

/-!
What a name stands for: a registered primitive, or else the catalog entry under that identifier
with its kind.
-/

namespace Schemata

inductive Classified where
  | primitive (fragment : Value)
  | entry (kind : Kind) (entry : Entry)

namespace Classified

def kind : Classified → Kind
  | .primitive _ => .scalar
  | .entry kind _ => kind

end Classified

def Entry.kindOf (entry : Entry) : Except CompileError Kind :=
  match entry.kind? with
  | some kind => .ok kind
  | none => .error (.unknownKind entry.name.shown)

/-- Primitives come before entries of the catalog. -/
def classify (catalog : Catalog) (registry : Registry) (name : String) :
    Except CompileError Classified :=
  match registry.get? name with
  | some fragment => .ok (.primitive fragment)
  | none =>
    match catalog.get? name with
    | none => .error (.unknownType name)
    | some entry => entry.kindOf.map fun kind => .entry kind entry

/-- An entry that a name stands for is held by the catalog. -/
theorem mem_of_classify_eq {catalog : Catalog} {registry : Registry} {name : String} {kind : Kind}
    {entry : Entry} (classified : classify catalog registry name = .ok (.entry kind entry)) :
    entry ∈ catalog.toList := by
  unfold classify at classified
  split at classified
  · cases classified
  · split at classified
    · cases classified
    · rename_i found
      unfold Except.map at classified
      split at classified
      · cases classified
      · cases classified
        exact List.mem_map_of_mem (Record.mem_of_find? found)

end Schemata
