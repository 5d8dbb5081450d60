/-!
Ordered records: named values in the order in which the names were first given. Giving a name
again replaces its value and keeps its place.
-/

namespace Schemata

abbrev Record (α : Type) := List (String × α)

namespace Record

variable {α : Type}

def names (record : Record α) : List String := record.map Prod.fst

def find? (record : Record α) (name : String) : Option α := record.lookup name

def has (record : Record α) (name : String) : Bool := (find? record name).isSome

/-- Replaces the value of a name in its place, or appends the name. -/
def set : Record α → String → α → Record α
  | [], name, value => [(name, value)]
  | (key, old) :: rest, name, value =>
    if key = name then (key, value) :: rest else (key, old) :: set rest name value

/-- The values given one after another, later ones of a name replacing earlier ones. -/
def ofList (entries : List (String × α)) : Record α :=
  entries.foldl (fun record (name, value) => set record name value) []

theorem mem_of_lookup {κ : Type} [BEq κ] [LawfulBEq κ] {entries : List (κ × α)} {key : κ} {value : α}
    (found : entries.lookup key = some value) : (key, value) ∈ entries := by
  obtain ⟨front, back, same, -⟩ := List.lookup_eq_some_iff.mp found
  rw [same]
  exact List.mem_append_right _ List.mem_cons_self

theorem mem_of_find? {record : Record α} {name : String} {value : α}
    (found : find? record name = some value) : (name, value) ∈ record :=
  mem_of_lookup found

end Record

end Schemata
