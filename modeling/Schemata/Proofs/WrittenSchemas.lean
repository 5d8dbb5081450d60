import Schemata.Proofs.SchemaPositions
import Schemata.Proofs.WalkRules
import Mathlib.Data.Option.Basic

/-! Schemas as they are written. What is done to a schema can as well be done to the mapping that it is
written as: keywords are found and set there, and null is admitted there. -/

namespace Schemata

namespace Value

def nullable? (flagged : Bool) (value : Value) : Option Value :=
  (((Schema.ofValue value).nullable? flagged).map Schema.toValue).toOption

def updated (value : Value) (rest : Object) : Value :=
  match value with
  | .map entries => .map (rest.foldl (fun entries (key, held) => put entries key held) entries)
  | value => value

end Value

namespace Schema

theorem find?_entries (parts : Parts) (name : String) :
    Value.find? (entries parts) name = (Record.find? parts name).map partValue := by
  induction parts with
  | nil => rfl
  | cons head rest ih =>
    obtain ⟨key, part⟩ := head
    simp only [entries, Value.find?, Value.isText, Record.find?, List.lookup_cons] at ih ⊢
    by_cases same : name = key
    · simp [same]
    · simp only [decide_eq_true_eq, Ne.symm same, if_false, ih, beq_false_of_ne same]

theorem put_entries (parts : Parts) (name : String) (part : Part Schema) :
    Value.put (entries parts) (.text name) (partValue part) = entries (Record.set parts name part) := by
  induction parts with
  | nil => rfl
  | cons head rest ih =>
    obtain ⟨key, held⟩ := head
    simp only [entries, Value.put, Record.set, Value.sameKey, Value.keyForm, decide_eq_true_eq]
    split <;> simp [entries, ih]

def remarks (title description : Option Value) : Object :=
  (title.map fun title => (.text "title", title)).toList
    ++ (description.map fun description => (.text "description", description)).toList

theorem toValue_described {parts : Parts} {title description : Option Value} {described : Schema}
    (done : (keywords parts).described title description = .ok described) :
    described.toValue = (keywords parts).toValue.updated (remarks title description) := by
  have put (parts : Parts) (name : String) (value : Value) :=
    put_entries parts name (.data value)
  cases title <;> cases description <;> cases done <;> simp [toValue, remarks, Value.updated, ← put, partValue]

theorem toValue_ofRecord (record : Record Value) : (ofRecord record).toValue = .record record := by
  simp [ofRecord, dataParts, toValue, entries_eq_map, partValue, Value.record]

theorem toValue_ofValue (value : Value) : (ofValue value).toValue = value := by
  rcases ofValue_cases value with same | ⟨record, rfl, same⟩ <;> rw [same]
  · rfl
  · exact toValue_ofRecord record

theorem ofValue_record (fragment : Record Value) : ofValue (.record fragment) = ofRecord fragment := by
  have read : Value.record? (fragment.map fun entry => (.text entry.1, entry.2)) = some fragment := by
    induction fragment with
    | nil => rfl
    | cons head rest ih => simp [Value.record?, ih]
  simp only [Value.record, ofValue, read]

private def flattened (parts : Parts) : Parts := parts.map fun (name, part) => (name, .data (partValue part))

private theorem entries_flattened (parts : Parts) : entries (flattened parts) = entries parts := by
  simp [flattened, entries_eq_map, partValue]

private theorem find?_flattened (parts : Parts) (name : String) :
    Record.find? (flattened parts) name = (Record.find? parts name).map fun part => .data (partValue part) :=
  Record.find?_map (fun part => Part.data (partValue part)) parts name

private theorem ofValue_toValue (parts : Parts) : ofValue (keywords parts).toValue = keywords (flattened parts) := by
  have written : (keywords parts).toValue = .record (parts.map fun (name, part) => (name, partValue part)) := by
    simp [toValue, entries_eq_map, Value.record]
  rw [written, ofValue_record, ofRecord, dataParts, flattened, List.map_map]
  rfl

private theorem addNull_flattened (part : Part Schema) :
    (addNull (.data (partValue part))).map partValue = (addNull part).map partValue := by
  cases part with
  | schemas items =>
    simp only [addNull, partValue, Value.members?, Value.untied, Except.map, values_eq_map, List.map_append]
    rfl
  | data | reference | schema | members => rfl

/-- Keywords that carry the mark of null themselves or, without a type, are wrapped. -/
def marked (flagged : Bool) (parts : Parts) : Schema :=
  match type? parts with
  | none =>
    if flagged then .keywords [("allOf", .schemas [.keywords parts]), ("nullable", .data (.bool true))]
    else oneOf [.keywords parts, null]
  | some type =>
    .keywords <|
      if flagged then Record.set parts "nullable" (.data (.bool true))
      else Record.set parts "type" (.data (typeWithNull type))

theorem nullable?_keywords (flagged : Bool) (parts : Parts) : (keywords parts).nullable? flagged =
    match Record.find? parts "oneOf", Record.has parts "type" with
    | some alternatives, false => (addNull alternatives).map fun part => .keywords (Record.set parts "oneOf" part)
    | _, _ => .ok (marked flagged parts) := by
  simp only [nullable?, marked]
  cases Record.find? parts "oneOf" <;> cases Record.has parts "type" <;> cases type? parts <;> rfl

theorem find?_of_type? {parts : Parts} {type : Value} (typed : type? parts = some type) :
    Record.find? parts "type" = some (.data type) := by
  unfold type? at typed
  split at typed
  next => cases typed
  next found => cases typed; exact found
  next => cases typed

/-- Alternatives with null beside them are schemas again, or else data. -/
theorem addNull_eq_ok {part widened : Part Schema} (added : addNull part = .ok widened) :
    (∃ items, part = .schemas items ∧ widened = .schemas (items ++ [null])) ∨
      ∃ items, (partValue part).members? = some items ∧ widened = .data (.list (items ++ [null.toValue])) := by
  cases part with
  | schemas items =>
    cases added
    exact .inl ⟨items, rfl, rfl⟩
  | data | reference | schema | members =>
    simp only [addNull] at added
    split at added
    next items listed => cases added; exact .inr ⟨items, listed, rfl⟩
    next => cases added

inductive Admission (flagged : Bool) (parts : Parts) : Schema → Prop where
  | alternative {part widened : Part Schema} (found : Record.find? parts "oneOf" = some part)
      (untyped : Record.has parts "type" = false) (added : addNull part = .ok widened) :
      Admission flagged parts (.keywords (Record.set parts "oneOf" widened))
  | wrapped (flag : flagged = true) (untyped : type? parts = none) : Admission flagged parts
      (.keywords [("allOf", .schemas [.keywords parts]), ("nullable", .data (.bool true))])
  | beside (unflagged : flagged = false) (untyped : type? parts = none) :
      Admission flagged parts (oneOf [.keywords parts, null])
  | flagged {type : Value} (flag : flagged = true) (typed : type? parts = some type) :
      Admission flagged parts (.keywords (Record.set parts "nullable" (.data (.bool true))))
  | typed {type : Value} (unflagged : flagged = false) (typed : type? parts = some type) :
      Admission flagged parts (.keywords (Record.set parts "type" (.data (typeWithNull type))))

theorem admission {schema widened : Schema} {flagged : Bool} (done : schema.nullable? flagged = .ok widened) :
    ∃ parts, schema = keywords parts ∧ Admission flagged parts widened := by
  cases schema with
  | data => cases done
  | keywords parts =>
    refine ⟨parts, rfl, ?_⟩
    rw [nullable?_keywords] at done
    split at done
    next part found untyped =>
      cases added : addNull part with
      | error fault => rw [added] at done; cases done
      | ok widened =>
        rw [added] at done
        cases done
        exact .alternative found untyped added
    next =>
      cases done
      unfold marked
      cases typed : type? parts with
      | none =>
        cases flagged with
        | true => exact .wrapped rfl typed
        | false => exact .beside rfl typed
      | some type =>
        cases flagged with
        | true => exact .flagged rfl typed
        | false => exact .typed rfl typed

theorem keywords_of_nullable? {flagged : Bool} {parts : Parts} {widened : Schema}
    (done : (keywords parts).nullable? flagged = .ok widened) : ∃ others, widened = keywords others := by
  obtain ⟨_, -, admission⟩ := admission done
  cases admission <;> exact ⟨_, rfl⟩

/-- Null can be admitted before or after a schema is written. -/
theorem nullable?_toValue {parts : Parts}
    (typed : ∀ part, Record.find? parts "type" = some part → ∃ value, part = .data value) (flagged : Bool) :
    (keywords parts).toValue.nullable? flagged = (((keywords parts).nullable? flagged).map toValue).toOption := by
  have has : Record.has (flattened parts) "type" = Record.has parts "type" := by
    simp [Record.has, find?_flattened]
  have kind : type? (flattened parts) = type? parts := by
    unfold type?
    rw [find?_flattened]
    cases found : Record.find? parts "type" with
    | none => rfl
    | some part =>
      obtain ⟨value, rfl⟩ := typed part found
      rfl
  have set (name : String) (part : Part Schema) :
      (keywords (Record.set (flattened parts) name part)).toValue = (keywords (Record.set parts name part)).toValue := by
    simp only [toValue, ← put_entries, entries_flattened]
  have wrapped : (marked flagged (flattened parts)).toValue = (marked flagged parts).toValue := by
    simp only [marked, kind]
    cases type? parts with
    | none => cases flagged <;> simp [oneOf, toValue, entries, partValue, values, entries_flattened]
    | some type => cases flagged <;> exact set _ _
  -- the alternatives are put where the old ones were, whichever way they are held
  have put (written : Parts) (same : entries written = entries parts) (outcome : Except Fault (Part Schema)) :
      (outcome.map fun part => keywords (Record.set written "oneOf" part)).map toValue =
        (outcome.map partValue).map fun value => .map (Value.put (entries parts) (.text "oneOf") value) := by
    cases outcome with
    | error fault => rfl
    | ok part => simp only [Except.map, toValue, ← put_entries, same]
  rw [Value.nullable?, ofValue_toValue, nullable?_keywords, nullable?_keywords, has, find?_flattened]
  congr 1
  cases Record.find? parts "oneOf" with
  | none => exact congrArg Except.ok wrapped
  | some part =>
    cases Record.has parts "type" with
    | true => exact congrArg Except.ok wrapped
    | false =>
      simp only [Option.map_some]
      rw [put _ (entries_flattened parts), put _ rfl, addNull_flattened]

end Schema

end Schemata
