import Schemata.Compiler
import Schemata.Proofs.BodyPairs
import Schemata.Proofs.SchemaPositions
import Schemata.Proofs.WrittenSchemas
import Mathlib.Order.Filter.AtTopBot.Basic

/-! Unfolding. An object at a schema position that refers to the table stands for the body that the table
has, unfolded itself and with the other keywords of the object set on it. A reference that admits null
has a wrapper around it, which stands for the body widened to admit null. Unfolding goes by what is
written and knows nothing of how it came about. -/

namespace Schemata

namespace Value

/-- The target of an object that refers to the table, whether null is admitted beside it, and what else
the object says. -/
def referral? (flagged : Bool) (entries : Object) : Option (Value × Bool × Object) :=
  match find? entries "$ref" with
  | some target => some (target, false, without entries "$ref")
  | none =>
    if flagged then
      match find? entries "allOf", find? entries "nullable" with
      | some (.list [.map [(.text "$ref", target)]]), some (.bool true) =>
        some (target, true, without (without entries "allOf") "nullable")
      | _, _ => none
    else
      match find? entries "oneOf" with
      | some (.list [.map [(.text "$ref", target)], .map [(.text "type", .text "null")]]) =>
        some (target, true, without entries "oneOf")
      | _ => none

section Unfold

variable (resolve : Value → Option Value) (flagged : Bool)

mutual

/-- A value at a position with the references in it unfolded, given what targets stand for. -/
def unfolded? : Position → Value → Option Value
  | .schema, .map entries =>
    match referral? flagged entries with
    | some (target, nullable, rest) =>
      (resolve target).bind fun body =>
        (if nullable then body.nullable? flagged else some body).map fun body => body.updated rest
    | none => (unfoldKeywords? entries).map .map
  | .list, .list items => (unfoldItems? items).map .list
  | .members, .map entries => (unfoldMembers? entries).map .map
  | _, value => some value

def unfoldKeywords? : Object → Option Object
  | [] => some []
  | (.text name, value) :: rest =>
    match Position.of? name with
    | some position =>
      (unfolded? position value).bind fun value =>
        (unfoldKeywords? rest).map fun rest => (.text name, value) :: rest
    | none => (unfoldKeywords? rest).map fun rest => (.text name, value) :: rest
  | entry :: rest => (unfoldKeywords? rest).map fun rest => entry :: rest

def unfoldItems? : List Value → Option (List Value)
  | [] => some []
  | item :: rest =>
    (unfolded? .schema item).bind fun item => (unfoldItems? rest).map fun rest => item :: rest

def unfoldMembers? : Object → Option Object
  | [] => some []
  | (key, value) :: rest =>
    (unfolded? .schema value).bind fun value => (unfoldMembers? rest).map fun rest => (key, value) :: rest

end

end Unfold

end Value

namespace Table

def body? (table : Table) (base : String) (target : Value) : Option Value :=
  (List.find? (fun (name, _) => target.isText (base ++ name)) table).map fun (_, body) => body.toValue

/-- A schema with all references to the table unfolded. There is no answer if they go deeper than given. -/
def unfolded? (table : Table) (dialect : Dialect) : Nat → Value → Option Value
  | 0, _ => none
  | depth + 1, value =>
    value.unfolded? (fun target => (table.body? dialect.base target).bind (unfolded? table dialect depth)) dialect.flagged .schema

def resolved? (table : Table) (dialect : Dialect) (depth : Nat) (target : Value) : Option Value :=
  (table.body? dialect.base target).bind (table.unfolded? dialect depth)

/-- More depth than is needed does no harm, and enough for what targets stand for is enough for one level more. -/
theorem eventually_unfolded? {table : Table} {dialect : Dialect} {value other : Value}
    (step : ∀ᶠ depth in Filter.atTop,
      value.unfolded? (table.resolved? dialect depth) dialect.flagged .schema = some other) :
    ∀ᶠ depth in Filter.atTop, table.unfolded? dialect depth value = some other := by
  obtain ⟨start, enough⟩ := Filter.eventually_atTop.mp step
  refine Filter.eventually_atTop.mpr ⟨start + 1, fun depth later => ?_⟩
  cases depth with
  | zero => omega
  | succ depth => exact enough depth (by omega)

theorem exists_body? {table : Table} {name : String} (listed : name ∈ Record.names table) (base : String) :
    ∃ body, (name, body) ∈ table ∧ table.body? base (.text (base ++ name)) = some body.toValue := by
  have found : (List.find? (fun entry => (Value.text (base ++ name)).isText (base ++ entry.1)) table).isSome = true := by
    obtain ⟨body, member⟩ := Record.exists_of_mem_names listed
    exact List.find?_isSome.mpr ⟨_, member, by simp [Value.isText]⟩
  obtain ⟨⟨label, body⟩, same⟩ := Option.isSome_iff_exists.mp found
  have matched := List.find?_some same
  rw [Value.isText, decide_eq_true_eq, String.append_right_inj] at matched
  cases show name = label from matched
  exact ⟨body, List.mem_of_find?_eq_some same, by rw [body?, same]; rfl⟩

end Table

namespace Compiled

def unfolded? (table : Table) (dialect : Dialect) (depth : Nat) : Compiled → Option Value
  | .single schema => table.unfolded? dialect depth schema.toValue
  | .parameters records =>
    (records.mapM fun record =>
      (table.unfolded? dialect depth record.schema.toValue).map fun schema =>
        ParameterRecord.toValue id { record with schema }).map .list

end Compiled

namespace Value

variable {resolve : Value → Option Value} {flagged : Bool}

def RefersNowhere (objects : List Object) : Prop :=
  ∀ object ∈ objects, ∀ target, (.text "$ref", target) ∉ object

private theorem RefersNowhere.left {first second : List Object} (clean : RefersNowhere (first ++ second)) :
    RefersNowhere first :=
  fun object member => clean object (List.mem_append_left _ member)

private theorem RefersNowhere.right {first second : List Object} (clean : RefersNowhere (first ++ second)) :
    RefersNowhere second :=
  fun object member => clean object (List.mem_append_right _ member)

theorem mem_of_find? {entries : Object} {name : String} {value : Value} (found : find? entries name = some value) :
    (.text name, value) ∈ entries := by
  induction entries with
  | nil => cases found
  | cons head rest ih =>
    obtain ⟨key, held⟩ := head
    simp only [find?] at found
    split at found
    next same =>
      cases found
      cases key with
      | text label =>
        rw [isText, decide_eq_true_eq] at same
        exact same ▸ List.mem_cons_self
      | _ => cases same
    next => exact List.mem_cons_of_mem _ (ih found)

private theorem mem_keywordObjects_of_mem {entries : Object} {name : String} {value : Value} {position : Position}
    {object : Object} (member : (.text name, value) ∈ entries) (known : Position.of? name = some position)
    (inside : object ∈ objectsAt position value) : object ∈ keywordObjects entries := by
  induction entries with
  | nil => cases member
  | cons head rest ih =>
    rcases List.mem_cons.mp member with rfl | later
    · rw [keywordObjects, known]
      exact List.mem_append_left _ inside
    · obtain ⟨key, held⟩ := head
      cases key with
      | text label =>
        rw [keywordObjects]
        split
        · exact List.mem_append_right _ (ih later)
        · exact ih later
      | _ => simpa only [keywordObjects] using ih later

private theorem referral?_eq_none {entries : Object} (clean : RefersNowhere (entries :: keywordObjects entries)) :
    referral? flagged entries = none := by
  have inner {name : String} {items : List Value} (known : Position.of? name = some .list)
      (found : find? entries name = some (.list items)) : RefersNowhere (itemObjects items) :=
    fun object member => clean object (List.mem_cons_of_mem _ (mem_keywordObjects_of_mem (mem_of_find? found) known member))
  unfold referral?
  split
  next target found => exact absurd (mem_of_find? found) (clean entries List.mem_cons_self target)
  next =>
    split
    · split
      next target found _ =>
        have wrapped := inner rfl found [(.text "$ref", target)] (by simp [itemObjects, objectsAt]) target
        simp at wrapped
      next => rfl
    · split
      next target found =>
        have wrapped := inner rfl found [(.text "$ref", target)] (by simp [itemObjects, objectsAt]) target
        simp at wrapped
      next => rfl

mutual

/-- Where a reader meets no reference, unfolding changes nothing. -/
theorem unfolded?_of_refersNowhere (position : Position) : (value : Value) →
    RefersNowhere (objectsAt position value) → unfolded? resolve flagged position value = some value
  | .map entries, clean => by
    cases position with
    | schema =>
      have below : RefersNowhere (keywordObjects entries) := fun object member =>
        clean object (List.mem_cons_of_mem _ member)
      rw [unfolded?, referral?_eq_none clean, unfoldKeywords?_of_refersNowhere entries below]
      rfl
    | members =>
      rw [unfolded?, unfoldMembers?_of_refersNowhere entries clean]
      rfl
    | list => rfl
  | .list items, clean => by
    cases position with
    | list =>
      rw [unfolded?, unfoldItems?_of_refersNowhere items clean]
      rfl
    | schema | members => rfl
  | .null, _ | .bool _, _ | .int _, _ | .float _, _ | .text _, _ | .date _, _ | .moment _, _ | .bytes _, _ | .set _, _
  | .pair .., _ | .knot .., _ | .again .., _ => by cases position <;> rfl

theorem unfoldKeywords?_of_refersNowhere : (entries : Object) → RefersNowhere (keywordObjects entries) →
    unfoldKeywords? resolve flagged entries = some entries
  | [], _ => rfl
  | (key, value) :: rest, clean => by
    have own (position : Position) := unfolded?_of_refersNowhere position value
    have later := unfoldKeywords?_of_refersNowhere rest
    cases key with
    | text name =>
      rw [keywordObjects] at clean
      rw [unfoldKeywords?]
      split
      next position known =>
        simp only [known] at clean
        rw [own position clean.left, later clean.right]
        rfl
      next unknown =>
        simp only [unknown] at clean
        rw [later clean]
        rfl
    | _ =>
      rw [unfoldKeywords?, later (by simpa only [keywordObjects] using clean)]
      · rfl
      · nofun

theorem unfoldItems?_of_refersNowhere : (items : List Value) → RefersNowhere (itemObjects items) →
    unfoldItems? resolve flagged items = some items
  | [], _ => rfl
  | item :: rest, clean => by
    rw [itemObjects] at clean
    rw [unfoldItems?, unfolded?_of_refersNowhere .schema item clean.left, unfoldItems?_of_refersNowhere rest clean.right]
    rfl

theorem unfoldMembers?_of_refersNowhere : (entries : Object) → RefersNowhere (memberObjects entries) →
    unfoldMembers? resolve flagged entries = some entries
  | [], _ => rfl
  | (key, value) :: rest, clean => by
    rw [memberObjects] at clean
    rw [unfoldMembers?, unfolded?_of_refersNowhere .schema value clean.left, unfoldMembers?_of_refersNowhere rest clean.right]
    rfl

end

end Value

end Schemata
