import Schemata.Definition.Check
import Mathlib.Data.List.Forall2

/-! What checking lets through. A definition is read from data exactly if the data say its kind and all its attributes.
So whatever data it was read from, a sum has values and a union has alternatives. -/

namespace Schemata

/-- The alternatives of a definition are not empty. -/
def Definition.IsModel : Definition → Prop
  | .sum _ values => values ≠ []
  | .union _ alternatives => alternatives ≠ []
  | .scalar .. | .product .. | .map .. | .input .. => True

theorem Kind.ofName?_eq_some {name : String} {kind : Kind} : ofName? name = some kind ↔ name = kind.name := by
  constructor
  · intro found
    have named := List.find?_some (show all.find? (fun kind => decide (kind.name = name)) = some kind from found)
    exact (of_decide_eq_true named).symm
  · rintro rfl
    cases kind <;> rfl

namespace Checked

theorem also_eq_ok {function : Checked (α → β)} {argument : Checked α} {result : β} :
    also function argument = .ok result ↔ ∃ f a, function = .ok f ∧ argument = .ok a ∧ f a = result := by
  cases function <;> cases argument <;> simp [also]

/-- What is checked item by item. -/
theorem of_each {check : List Step → Value → Checked α} {place : List Step} {items : List Value} {results : List α}
    (checked : each check place items = .ok results) :
    List.Forall₂ (fun item result => ∃ inside, check inside item = .ok result) items results := by
  suffices later : ∀ index items results, each.go check place index items = .ok results →
      List.Forall₂ (fun item result => ∃ inside, check inside item = .ok result) items results from
    later 0 items results checked
  intro index items
  induction items generalizing index with
  | nil =>
    intro results checked
    cases checked
    exact .nil
  | cons item rest ih =>
    intro results checked
    obtain ⟨_, others, first, more, rfl⟩ := also_eq_ok.mp checked
    cases own : check (place ++ [.index index]) item with
    | error findings => rw [own] at first; cases first
    | ok result =>
      rw [own] at first
      cases first
      exact .cons ⟨_, own⟩ (ih (index + 1) others more)

end Checked

namespace Check

variable {place : List Step} {data : List (Value × Value)} {value : Value} {definition : Definition}

theorem ne_nil_of_someOf {check : List Step → Value → Checked α} {items : List α}
    (checked : someOf check place value = .ok items) : items ≠ [] := by
  unfold someOf at checked
  split at checked
  next => cases checked
  next empty =>
    intro none
    subst none
    exact empty checked

theorem required_eq_ok {check : List Step → Value → Checked α} {name : String} {part : α}
    (checked : required check place data name = .ok part) :
    ∃ value, Value.find? data name = some value ∧ check (place ++ [.name name]) value = .ok part := by
  unfold required at checked
  split at checked
  next value found => exact ⟨value, found, checked⟩
  next => cases checked

theorem field_eq_ok {result : Field} :
    field place value = .ok result ↔ ∃ data, value.entries? = some data ∧
      required text place data "name" = .ok result.name ∧ required reference place data "type" = .ok result.type ∧
      defaulted (optional text) none place data "title" = .ok result.title ∧
      defaulted (optional text) none place data "description" = .ok result.description ∧
      defaulted (optional (listOf text)) none place data "enum" = .ok result.choices := by
  cases found : value.entries? <;> cases result <;> simp [field, found, Checked.also_eq_ok, Checked.fail, and_assoc]

theorem parameter_eq_ok {result : Parameter} :
    parameter place value = .ok result ↔ ∃ data, value.entries? = some data ∧
      required text place data "name" = .ok result.name ∧ required reference place data "type" = .ok result.type ∧
      defaulted (optional text) none place data "description" = .ok result.description := by
  cases found : value.entries? <;> cases result <;> simp [parameter, found, Checked.also_eq_ok, Checked.fail]

/-- What the data of a definition say, each kind in its own attributes. -/
def States (place : List Step) (data : List (Value × Value)) : Definition → Prop
  | .scalar name fragment =>
    required text place data "name" = .ok name ∧ required mapping place data "fragment" = .ok fragment
  | .product name fields title description contentType =>
    required text place data "name" = .ok name ∧ defaulted (members field) [] place data "fields" = .ok fields ∧
      defaulted (optional text) none place data "title" = .ok title ∧
      defaulted (optional text) none place data "description" = .ok description ∧
      defaulted text Definition.jsonContentType place data "content_type" = .ok contentType
  | .sum name values =>
    required text place data "name" = .ok name ∧ required (someOf text) place data "values" = .ok values
  | .map name valueType sample =>
    required text place data "name" = .ok name ∧
      defaulted (optional reference) none place data "value_type" = .ok valueType ∧
      defaulted mapping [] place data "example" = .ok sample
  | .union name alternatives =>
    required text place data "name" = .ok name ∧
      required (someOf reference) place data "allowed_types" = .ok alternatives
  | .input name parameters =>
    required text place data "name" = .ok name ∧
      defaulted (members parameter) [] place data "parameters" = .ok parameters

theorem attributes_eq_ok {kind : Kind} :
    attributes kind place data = .ok definition ↔ definition.kind = kind ∧ States place data definition := by
  cases kind <;> cases definition <;> simp [attributes, States, Checked.also_eq_ok, Definition.kind, and_assoc]

theorem isModel_of_states (stated : States place data definition) : definition.IsModel := by
  cases definition with
  | sum | union =>
    obtain ⟨value, -, some⟩ := required_eq_ok stated.2
    exact ne_nil_of_someOf some
  | scalar | product | map | input => trivial

theorem kindOf_eq_some {kind : Kind} : kindOf value = some kind ↔ value = .text kind.name := by
  cases value <;> simp [kindOf, Kind.ofName?_eq_some]

end Check

/-- A definition is read from a mapping that says its kind, and its attributes. -/
theorem Definition.check_eq_ok {value : Value} {definition : Definition} :
    check value = .ok definition ↔ ∃ data, value.entries? = some data ∧
      Value.find? data "kind" = some (.text definition.kind.name) ∧
      Check.States [.name definition.kind.name] data definition := by
  constructor
  · intro checked
    unfold check at checked
    split at checked
    next data found =>
      split at checked
      next => cases checked
      next named =>
        split at checked
        next => cases checked
        next kind known =>
          obtain ⟨rfl, stated⟩ := Check.attributes_eq_ok.mp checked
          cases Check.kindOf_eq_some.mp known
          exact ⟨data, found, named, stated⟩
    next => cases checked
  · rintro ⟨data, found, named, stated⟩
    simp only [check, found, named, Check.kindOf_eq_some.mpr rfl]
    exact Check.attributes_eq_ok.mpr ⟨rfl, stated⟩

theorem Definition.isModel_of_check {value : Value} {definition : Definition} (checked : check value = .ok definition) :
    definition.IsModel := by
  obtain ⟨_, -, -, stated⟩ := check_eq_ok.mp checked
  exact Check.isModel_of_states stated

end Schemata
