import Schemata.Proofs.NullAdmission

/-! The marked fields of a product and the names that its body requires. Properties are a record, in which the last
field of a name takes the place of the others; required names are a list that only grows. The two match as long as no
marked field is followed by a field of its name. -/

namespace Schemata

theorem eraseDups_of_nodup {names : List String} (distinct : names.Nodup) : names.eraseDups = names := by
  induction names with
  | nil => rfl
  | cons name rest ih =>
    obtain ⟨fresh, others⟩ := List.nodup_cons.mp distinct
    have kept : rest.filter (fun other => !other == name) = rest :=
      List.filter_eq_self.mpr fun other member => by
        simpa using fun same : other = name => fresh (same ▸ member)
    rw [List.eraseDups_cons, kept, ih others]

theorem nodup_eraseDups (names : List String) : names.eraseDups.Nodup := by
  have distinct := Record.names_ofList_nodup (names.map fun name => (name, ()))
  rw [Record.names_ofList, Record.names, List.map_map] at distinct
  rwa [show names.map (Prod.fst ∘ fun name => (name, ())) = names from List.map_id names] at distinct

def Field.isMarked (field : Field) : Bool :=
  match TypeSpec.read true field.type with
  | .ok spec => spec.required
  | .error _ => false

def Field.markedNames (fields : List Field) : List String := (fields.filter (·.isMarked)).map (·.name)

namespace Definition

def fields : Definition → List Field
  | .product _ fields .. => fields
  | .scalar .. | .sum .. | .map .. | .union .. | .input .. => []

/-- The properties of a body are the fields of a definition, and its required names are those of the marked ones. -/
structure Lists (definition : Definition) (parts : Schema.Parts) (properties : Record Schema) : Prop where
  declared : Record.find? parts "properties" = some (.members properties)
  names : Record.names properties = (definition.fields.map (·.name)).eraseDups
  required : Record.find? parts "required" =
    if (Field.markedNames definition.fields).isEmpty then none
    else some (.data (.list ((Field.markedNames definition.fields).map .text)))

/-- The required names of a body are those properties, in order, whose fields are marked. A property belongs to the
last field of its name. -/
structure RequiresMarked (definition : Definition) (parts : Schema.Parts) (properties : Record Schema) : Prop where
  absent : Record.find? parts "required" = none ↔ ∀ field, definition.Has field → field.isMarked = false
  listed {part : Part Schema} : Record.find? parts "required" = some part →
    ∃ names : List String, part = .data (.list (names.map .text)) ∧ names ≠ [] ∧ names.Nodup ∧
      names.Sublist (Record.names properties) ∧
      ∀ field, definition.Has field → (field.name ∈ names ↔ field.isMarked = true)

/-- A marked field is the last of its name, and the names of the marked fields come first in the same order. -/
structure MarksLast (definition : Definition) : Prop where
  last : definition.fields.Pairwise fun field other => field.isMarked = true → other.name ≠ field.name
  ordered : (Field.markedNames definition.fields).Sublist (definition.fields.map (·.name)).eraseDups

variable {definition : Definition} {field other : Field}

theorem has_iff : definition.Has field ↔
    ∃ front back, definition.fields = front ++ field :: back ∧ ∀ other ∈ back, other.name ≠ field.name := by
  constructor
  · intro has
    cases has with
    | field last => exact ⟨_, _, rfl, last⟩
  · intro found
    obtain ⟨front, back, same, last⟩ := found
    cases definition with
    | product name fields title description contentType =>
      cases show fields = front ++ field :: back from same
      exact .field last
    | scalar | sum | map | union | input =>
      exact absurd (show [] = front ++ field :: back from same) (by simp)

theorem Has.mem (has : definition.Has field) : field ∈ definition.fields := by
  obtain ⟨front, back, same, -⟩ := has_iff.mp has
  rw [same]
  exact List.mem_append_right _ List.mem_cons_self

theorem Has.unique (has : definition.Has field) (hasToo : definition.Has other) (same : field.name = other.name) :
    field = other := by
  have found {field : Field} (has : definition.Has field) :
      definition.fields.reverse.find? (fun other => other.name == field.name) = some field := by
    obtain ⟨front, back, split, last⟩ := has_iff.mp has
    have none : back.reverse.find? (fun other => other.name == field.name) = none := by simpa using last
    rw [split, List.reverse_append, List.reverse_cons, List.append_assoc, List.find?_append, none]
    simp
  have first := found has
  rw [same, found hasToo] at first
  exact (Option.some.inj first).symm

theorem exists_last {fields : List Field} {name : String} (listed : name ∈ fields.map (·.name)) :
    ∃ front last back, fields = front ++ last :: back ∧ last.name = name ∧ ∀ other ∈ back, other.name ≠ name := by
  induction fields with
  | nil => cases listed
  | cons head rest ih =>
    by_cases later : name ∈ rest.map (·.name)
    · obtain ⟨front, last, back, rfl, own, none⟩ := ih later
      exact ⟨head :: front, last, back, rfl, own, none⟩
    · rcases List.mem_cons.mp listed with own | impossible
      · exact ⟨[], head, rest, rfl, own.symm, fun other member same => later (same ▸ List.mem_map_of_mem member)⟩
      · exact absurd impossible later

theorem mem_markedNames (member : field ∈ definition.fields) (own : field.isMarked = true) :
    field.name ∈ Field.markedNames definition.fields :=
  List.mem_map_of_mem (List.mem_filter.mpr ⟨member, own⟩)

theorem MarksLast.has (marks : definition.MarksLast) (member : field ∈ definition.fields) (own : field.isMarked = true) :
    definition.Has field := by
  obtain ⟨front, back, split⟩ := List.append_of_mem member
  refine has_iff.mpr ⟨front, back, split, fun other behind => ?_⟩
  have pairs := marks.last
  rw [split] at pairs
  exact (List.pairwise_cons.mp (List.pairwise_append.mp pairs).2.1).1 other behind own

theorem MarksLast.mem_markedNames_iff (marks : definition.MarksLast) (has : definition.Has field) :
    field.name ∈ Field.markedNames definition.fields ↔ field.isMarked = true := by
  refine ⟨fun listed => ?_, mem_markedNames has.mem⟩
  obtain ⟨other, member, same⟩ := List.mem_map.mp listed
  obtain ⟨present, own⟩ := List.mem_filter.mp member
  rwa [has.unique (marks.has present own) same.symm]

theorem MarksLast.markedNames_eq_nil_iff (marks : definition.MarksLast) :
    Field.markedNames definition.fields = [] ↔ ∀ field, definition.Has field → field.isMarked = false := by
  constructor
  · intro none field has
    rw [← Bool.not_eq_true, ← marks.mem_markedNames_iff has, none]
    exact List.not_mem_nil
  · intro unmarked
    refine List.map_eq_nil_iff.mpr (List.filter_eq_nil_iff.mpr fun field member own => ?_)
    exact absurd own (by simp [unmarked field (marks.has member own)])

theorem Lists.requiresMarked {parts : Schema.Parts} {properties : Record Schema}
    (lists : definition.Lists parts properties) (marks : definition.MarksLast) :
    definition.RequiresMarked parts properties := by
  constructor
  · rw [lists.required, ← marks.markedNames_eq_nil_iff]
    split
    next empty => simpa using empty
    next some => simpa using some
  · intro part found
    rw [lists.required] at found
    split at found
    next => cases found
    next some =>
      cases found
      exact ⟨_, rfl, by simpa using some, marks.ordered.nodup (nodup_eraseDups _), lists.names ▸ marks.ordered,
        fun field => marks.mem_markedNames_iff⟩

/-- If no name is listed twice, and the last field of a listed name is marked, no marked field is followed by one of its
name: it would be listed together with the last one. -/
theorem last_of_nodup_markedNames (unrepeated : (Field.markedNames definition.fields).Nodup)
    (sound : ∀ field, definition.Has field → field.name ∈ Field.markedNames definition.fields → field.isMarked = true) :
    definition.fields.Pairwise fun field other => field.isMarked = true → other.name ≠ field.name := by
  refine List.pairwise_iff_forall_sublist.mpr fun {field other} both own same => ?_
  obtain ⟨front, back, split, inFront, later⟩ := List.cons_sublist_iff.mp both
  have listed : field.name ∈ back.map (·.name) := same ▸ List.mem_map_of_mem (List.singleton_sublist.mp later)
  obtain ⟨middle, last, rest, rfl, named, final⟩ := exists_last listed
  have has : definition.Has last := has_iff.mpr ⟨front ++ middle, rest, by rw [split, List.append_assoc], named ▸ final⟩
  have member : field ∈ definition.fields := split ▸ List.mem_append_left _ inFront
  have ownToo : last.isMarked = true := sound last has (named ▸ mem_markedNames member own)
  have apart : definition.fields.Pairwise fun first second =>
      first.isMarked = true → second.isMarked = true → first.name ≠ second.name := by
    have pairs := List.nodup_iff_pairwise_ne.mp unrepeated
    rw [Field.markedNames, List.pairwise_map, List.pairwise_filter] at pairs
    exact pairs
  have behind : [field, last].Sublist definition.fields :=
    split ▸ List.cons_sublist_iff.mpr ⟨front, _, rfl, inFront, List.singleton_sublist.mpr (by simp)⟩
  exact List.pairwise_iff_forall_sublist.mp apart behind own ownToo named.symm

theorem RequiresMarked.marksLast {parts : Schema.Parts} {properties : Record Schema}
    (requires : definition.RequiresMarked parts properties) (lists : definition.Lists parts properties) :
    definition.MarksLast := by
  by_cases none : Field.markedNames definition.fields = []
  · refine ⟨List.pairwise_of_forall_mem_list fun field member other _ own => ?_, by rw [none]; exact List.nil_sublist _⟩
    exact absurd (mem_markedNames member own) (by simp [none])
  · have found := lists.required
    rw [if_neg (by simpa using none)] at found
    obtain ⟨names, same, -, unrepeated, ordered, all⟩ := requires.listed found
    have equal : Field.markedNames definition.fields = names := by
      simp only [Part.data.injEq, Value.list.injEq] at same
      exact List.map_injective_iff.mpr (fun _ _ => Value.text.inj) same
    subst equal
    exact ⟨last_of_nodup_markedNames unrepeated fun field has => (all field has).mp, lists.names ▸ ordered⟩

/-- The bodies that list the fields of a definition require the marked properties exactly if it marks no field but the
last of its name. -/
theorem Lists.requiresMarked_iff {parts : Schema.Parts} {properties : Record Schema}
    (lists : definition.Lists parts properties) : definition.RequiresMarked parts properties ↔ definition.MarksLast :=
  ⟨fun requires => requires.marksLast lists, lists.requiresMarked⟩

theorem marksLast_of_nodup (distinct : (definition.fields.map (·.name)).Nodup) : definition.MarksLast := by
  constructor
  · have pairs := List.nodup_iff_pairwise_ne.mp distinct
    rw [List.pairwise_map] at pairs
    refine pairs.imp fun {first second} different => ?_
    exact fun _ => Ne.symm different
  · rw [eraseDups_of_nodup distinct]
    exact List.filter_sublist.map _

end Definition

theorem CompiledField.find?_required {properties : Part Schema} {required : List Value} {title description : Option Value}
    {parts : Schema.Parts} (same : CompiledField.body properties required title description = .keywords parts) :
    Record.find? parts "required" = if required.isEmpty then none else some (.data (.list required)) := by
  cases same
  cases required <;> cases title <;> cases description <;> rfl

theorem CompiledField.find?_properties {properties : Part Schema} {required : List Value}
    {title description : Option Value} {parts : Schema.Parts}
    (same : CompiledField.body properties required title description = .keywords parts) :
    Record.find? parts "properties" = some properties := by
  cases same
  rfl

/-- What a compiled field takes from its field. -/
theorem Setting.ShowsField.of_field {setting : Setting} {shows : TypeSpec → Schema → Prop} {field : Field}
    {compiled : CompiledField String} (shown : setting.ShowsField shows field compiled) :
    compiled = ⟨field.name, compiled.schema, field.isMarked⟩ := by
  obtain ⟨spec, schema, described, read, -, -, rfl⟩ := shown
  rw [Field.isMarked, read]

private theorem requiredNames_eq {setting : Setting} {shows : TypeSpec → Schema → Prop} {fields : List Field}
    {compiled : List (CompiledField String)} (all : List.Forall₂ (setting.ShowsField shows) fields compiled) :
    CompiledField.requiredNames compiled = Field.markedNames fields := by
  unfold CompiledField.requiredNames Field.markedNames
  induction all with
  | nil => rfl
  | @cons field one _ _ own _ ih =>
    rw [List.filter_cons, List.filter_cons, Setting.ShowsField.of_field own]
    cases field.isMarked <;> simpa using ih

/-- The body of a product lists its fields. -/
theorem Setting.ShowsBody.lists {setting : Setting} {shows : TypeSpec → Schema → Prop} {definition : Definition}
    {body : Schema} (shown : setting.ShowsBody shows definition body) (product : definition.kind = .product) :
    ∃ parts properties, body = .keywords parts ∧ definition.Lists parts properties := by
  cases definition with
  | scalar | sum | map | union | input => cases product
  | product name fields title description contentType =>
    obtain ⟨compiled, all, same⟩ := shown
    have named : compiled.map (·.name) = fields.map (·.name) := by
      rw [← List.forall₂_eq_eq_eq, List.forall₂_map_left_iff, List.forall₂_map_right_iff]
      exact all.flip.imp fun compiled field own => congrArg CompiledField.name (Setting.ShowsField.of_field own)
    refine ⟨_, _, same, CompiledField.find?_properties rfl, ?_, ?_⟩
    · rw [Record.names_ofList, Record.names, List.map_map]
      exact congrArg List.eraseDups named
    · rw [CompiledField.find?_required rfl, requiredNames_eq all, List.isEmpty_map]
      rfl

end Schemata
