import Schemata.Compiler
import Schemata.Proofs.Unfolding

/-! What a schema means: which documents it admits. A schema is the conjunction of its keywords, and a few
keywords have a meaning of their own; the others ask what a reader makes of them. Targets of references are
looked up by the reader as well, so that the meaning of a schema does not depend on there being a table. -/

namespace Schemata

/-- What is left open by the keywords that have a meaning: when values are equal, which names a pattern covers,
and what any other keyword asks of a document. -/
structure Reader where
  equal : Value → Value → Bool
  covers : String → String → Bool
  asks : String → Value → Value → Bool

/-- Keywords that hold schemas and say which documents they admit. All others are plain. -/
inductive Keyword where
  | oneOf
  | allOf
  | properties
  | items
  | additional
  | plain
  deriving DecidableEq

def Keyword.of : String → Keyword
  | "oneOf" => .oneOf
  | "allOf" => .allOf
  | "properties" => .properties
  | "items" => .items
  | "additionalProperties" => .additional
  | _ => .plain

theorem Keyword.position {name : String} :
    (of name = .oneOf ∨ of name = .allOf → Position.of? name = some .list) ∧
      (of name = .properties → Position.of? name = some .members) ∧
      (of name = .items ∨ of name = .additional → Position.of? name = some .schema) := by
  unfold of
  split <;> simp [Position.of?]

namespace Value

def hasType : String → Value → Bool
  | "null", .null => true
  | "boolean", .bool _ => true
  | "integer", .int _ => true
  | "integer", .float value => value.toInt?.isSome
  | "number", .int _ => true
  | "number", .float _ => true
  | "string", .text _ => true
  | "array", .list _ => true
  | "object", .map _ => true
  | _, _ => false

def isNull : Value → Bool
  | .null => true
  | _ => false

theorem eq_null_of_isNull {document : Value} (null : document.isNull = true) : document = .null := by
  cases document <;> first | rfl | cases null

theorem hasType_null (document : Value) : hasType "null" document = document.isNull := by
  cases document <;> rfl

theorem hasType_of_null {kind : String} (other : kind ≠ "null") : hasType kind .null = false := by
  unfold hasType
  split <;> first | rfl | contradiction

/-- Names that the properties or the patterns of a schema speak of already. -/
def declares (reader : Reader) (entries : Object) (name : String) : Bool :=
  (match find? entries "properties" with
    | some (.map members) => (find? members name).isSome
    | _ => false) ||
  match find? entries "patternProperties" with
  | some (.map patterns) => patterns.any fun (key, _) =>
    match key with
    | .text pattern => reader.covers pattern name
    | _ => false
  | _ => false

def eachItem (test : Value → Bool) : Value → Bool
  | .list items => items.all test
  | _ => true

def eachField (declared : String → Bool) (test : Value → Bool) : Value → Bool
  | .map fields => fields.all fun (key, held) =>
    match key with
    | .text name => declared name || test held
    | _ => true
  | _ => true

section Meaning

variable (reader : Reader) (refers : Value → Value → Bool)

def asksPlainly (name : String) (value document : Value) : Bool :=
  match name, value with
  | "$ref", target => refers target document
  | "type", .text type => hasType type document
  | "type", .list types => types.any fun type =>
    match type with
    | .text type => hasType type document
    | _ => false
  | "enum", .list values => values.any fun value => reader.equal value document
  | "required", .list names =>
    match document with
    | .map fields => names.all fun name =>
      match name with
      | .text name => (find? fields name).isSome
      | _ => true
    | _ => true
  | name, value => reader.asks name value document

mutual

def admits : Value → Value → Bool
  | .map entries, document => meets (declares reader entries) entries document
  | .bool allowed, _ => allowed
  | _, _ => false
termination_by structural schema => schema

def meets (declared : String → Bool) : Object → Value → Bool
  | [], _ => true
  | (.text name, value) :: rest, document =>
    asks declared (Keyword.of name) name value document && meets declared rest document
  | _ :: rest, document => meets declared rest document
termination_by structural entries => entries

/-- What a keyword asks of a document. Where there is no schema nothing more is admitted, and any other keyword that does
not hold what it should is left to the reader. -/
def asks (declared : String → Bool) : Keyword → String → Value → Value → Bool
  | .oneOf, _, .list alternatives, document => (verdicts alternatives document).count true == 1
  | .allOf, _, .list conditions, document => (verdicts conditions document).all id
  | .properties, _, .map members, document =>
    match document with
    | .map fields => membersAdmit members fields
    | _ => true
  | .items, _, .map entries, document => eachItem (meets (declares reader entries) entries) document
  | .items, _, .bool allowed, document => eachItem (fun _ => allowed) document
  | .additional, _, .map entries, document => eachField declared (meets (declares reader entries) entries) document
  | .additional, _, .bool allowed, document => eachField declared (fun _ => allowed) document
  | .additional, _, _, document => eachField declared (fun _ => false) document
  | _, name, value, document => asksPlainly reader refers name value document
termination_by structural _ _ value => value

def verdicts : List Value → Value → List Bool
  | [], _ => []
  | schema :: rest, document => admits schema document :: verdicts rest document
termination_by structural schemas => schemas

def membersAdmit : Object → Object → Bool
  | [], _ => true
  | (.text name, schema) :: rest, fields =>
    (match find? fields name with
      | some held => admits schema held
      | none => true) && membersAdmit rest fields
  | _ :: rest, fields => membersAdmit rest fields
termination_by structural members => members

end

theorem verdicts_eq_map (schemas : List Value) (document : Value) :
    verdicts reader refers schemas document = schemas.map fun schema => schema.admits reader refers document := by
  induction schemas with
  | nil => rfl
  | cons head rest ih => rw [verdicts, ih, List.map_cons]

end Meaning

end Value

namespace Table

/-- Whether a schema admits a document if references are looked up in a table. Something is assumed of those that
lie deeper than given. -/
def admits (table : Table) (dialect : Dialect) (reader : Reader) (assumed : Value → Value → Bool) :
    Nat → Value → Value → Bool
  | 0 => assumed
  | depth + 1 => Value.admits reader fun target document =>
    match table.body? dialect.base target with
    | some body => admits table dialect reader assumed depth body document
    | none => false

def follows (table : Table) (dialect : Dialect) (reader : Reader) (assumed : Value → Value → Bool) (depth : Nat)
    (target document : Value) : Bool :=
  match table.body? dialect.base target with
  | some body => table.admits dialect reader assumed depth body document
  | none => false

/-- Enough depth for what targets stand for is enough for one level more. -/
theorem eventually_admits {table : Table} {dialect : Dialect} {reader : Reader} {assumed : Value → Value → Bool}
    {schema : Value} {verdict : Value → Bool}
    (step : ∀ᶠ depth in Filter.atTop, ∀ document,
      schema.admits reader (table.follows dialect reader assumed depth) document = verdict document) :
    ∀ᶠ depth in Filter.atTop, ∀ document, table.admits dialect reader assumed depth schema document = verdict document := by
  obtain ⟨start, enough⟩ := Filter.eventually_atTop.mp step
  refine Filter.eventually_atTop.mpr ⟨start + 1, fun depth later => ?_⟩
  cases depth with
  | zero => omega
  | succ depth => exact enough depth (by omega)

end Table

namespace Value

section Alike

variable {reader : Reader} {refers other : Value → Value → Bool}

variable (refers other) in
/-- Two ways to follow references are alike on what the objects refer to that a reader meets as schemas. -/
def FollowAlike (objects : List Object) : Prop :=
  ∀ object ∈ objects, ∀ target, (.text "$ref", target) ∈ object → refers target = other target

private theorem FollowAlike.left {first second : List Object} (alike : FollowAlike refers other (first ++ second)) :
    FollowAlike refers other first :=
  fun object member => alike object (List.mem_append_left _ member)

private theorem FollowAlike.right {first second : List Object} (alike : FollowAlike refers other (first ++ second)) :
    FollowAlike refers other second :=
  fun object member => alike object (List.mem_append_right _ member)

variable (reader) in
private theorem asksPlainly_congr {name : String} (value : Value) (same : name = "$ref" → refers value = other value)
    (document : Value) : asksPlainly reader refers name value document = asksPlainly reader other name value document := by
  unfold asksPlainly
  split <;> simp_all

theorem asksPlainly_elsewhere {name : String} (apart : name ≠ "$ref") (value document : Value) :
    asksPlainly reader refers name value document = asksPlainly reader other name value document :=
  asksPlainly_congr reader value (fun same => absurd same apart) document

mutual

/-- Only what is referred to matters for what a schema admits. -/
theorem admits_congr : (schema : Value) → FollowAlike refers other (objectsAt .schema schema) → (document : Value) →
    admits reader refers schema document = admits reader other schema document
  | .map entries, alike, document => by
    rw [admits, admits]
    exact meets_congr _ entries (alike entries List.mem_cons_self)
      (fun object member => alike object (List.mem_cons_of_mem _ member)) document
  | .bool _, _, _ => by rw [admits, admits]
  | .null, _, _ | .int _, _, _ | .float _, _, _ | .text _, _, _ | .date _, _, _ | .moment _, _, _ | .bytes _, _, _
  | .list _, _, _ | .set _, _, _ | .pair .., _, _ | .knot .., _, _ | .again .., _, _ => by simp only [admits]

theorem meets_congr (declared : String → Bool) : (entries : Object) →
    (∀ target, (.text "$ref", target) ∈ entries → refers target = other target) →
    FollowAlike refers other (keywordObjects entries) → (document : Value) →
    meets reader refers declared entries document = meets reader other declared entries document
  | [], _, _, _ => rfl
  | (key, value) :: rest, own, alike, document => by
    have later := meets_congr declared rest fun target member => own target (List.mem_cons_of_mem _ member)
    cases key with
    | text name =>
      have target : name = "$ref" → refers value = other value := by
        rintro rfl
        exact own value List.mem_cons_self
      rw [keywordObjects] at alike
      rw [meets, meets]
      cases known : Position.of? name with
      | none =>
        rw [known] at alike
        rw [asks_congr declared name value target (by simp [known]), later alike]
      | some position =>
        rw [known] at alike
        rw [asks_congr declared name value target (by simpa [known] using alike.left), later alike.right]
    | _ =>
      rw [meets, meets, later (by simpa only [keywordObjects] using alike)]
      all_goals nofun

theorem asks_congr (declared : String → Bool) (name : String) : (value : Value) →
    (name = "$ref" → refers value = other value) →
    (∀ position, Position.of? name = some position → FollowAlike refers other (objectsAt position value)) →
    (document : Value) → asks reader refers declared (Keyword.of name) name value document =
      asks reader other declared (Keyword.of name) name value document
  | .map entries, own, alike, document => by
    have plainly := asksPlainly_congr reader (.map entries) own document
    have schema (known : Keyword.of name = .items ∨ Keyword.of name = .additional) :
        meets reader refers (declares reader entries) entries = meets reader other (declares reader entries) entries := by
      have inner := alike .schema (Keyword.position.2.2 known)
      funext item
      exact meets_congr _ entries (inner entries List.mem_cons_self)
        (fun object member => inner object (List.mem_cons_of_mem _ member)) item
    cases keyword : Keyword.of name with
    | oneOf | allOf | plain => simpa only [asks] using plainly
    | properties =>
      have inner := membersAdmit_congr entries (alike .members (Keyword.position.2.1 keyword))
      cases document <;> simp only [asks, inner]
    | items => simp only [asks, schema (.inl keyword)]
    | additional => simp only [asks, schema (.inr keyword)]
  | .list items, own, alike, document => by
    have plainly := asksPlainly_congr reader (.list items) own document
    have inner (known : Keyword.of name = .oneOf ∨ Keyword.of name = .allOf) :=
      verdicts_congr items (alike .list (Keyword.position.1 known)) document
    cases keyword : Keyword.of name with
    | oneOf => simp only [asks, inner (.inl keyword)]
    | allOf => simp only [asks, inner (.inr keyword)]
    | properties | items | plain => simpa only [asks] using plainly
    | additional => simp only [asks]
  | .bool allowed, own, _, document => by
    have plainly := asksPlainly_congr reader (.bool allowed) own document
    cases Keyword.of name <;> simp only [asks, plainly]
  | .null, own, _, document | .int _, own, _, document | .float _, own, _, document | .text _, own, _, document
  | .date _, own, _, document | .moment _, own, _, document | .bytes _, own, _, document
  | .set _, own, _, document | .pair .., own, _, document | .knot .., own, _, document
  | .again .., own, _, document => by
    have plainly := asksPlainly_congr reader _ own document
    cases Keyword.of name <;> simp only [asks]
    all_goals exact plainly

theorem verdicts_congr : (items : List Value) → FollowAlike refers other (itemObjects items) → (document : Value) →
    verdicts reader refers items document = verdicts reader other items document
  | [], _, _ => rfl
  | item :: rest, alike, document => by
    rw [itemObjects] at alike
    rw [verdicts, verdicts, admits_congr item alike.left, verdicts_congr rest alike.right]

theorem membersAdmit_congr : (members : Object) → FollowAlike refers other (memberObjects members) → (fields : Object) →
    membersAdmit reader refers members fields = membersAdmit reader other members fields
  | [], _, _ => rfl
  | (key, schema) :: rest, alike, fields => by
    rw [memberObjects] at alike
    have later := membersAdmit_congr rest alike.right fields
    cases key with
    | text name =>
      rw [membersAdmit, membersAdmit, later]
      cases find? fields name with
      | none => rfl
      | some held => simp only [admits_congr schema alike.left held]
    | _ =>
      rw [membersAdmit, membersAdmit, later]
      all_goals nofun

end

end Alike

end Value

namespace Table

def endsBefore (table : Table) (base : String) : Nat → Value → Bool
  | 0, _ => false
  | depth + 1, schema => (schema.objectsAt .schema).all fun object => object.all fun (key, target) =>
    !key.isText "$ref" || match table.body? base target with
      | some body => endsBefore table base depth body
      | none => true

/-- Where references end it does not matter how deep one looks and what is assumed further down. -/
theorem admits_of_endsBefore {table : Table} {dialect : Dialect} {reader : Reader} {assumed other : Value → Value → Bool}
    {depth more : Nat} {schema : Value} (ends : table.endsBefore dialect.base depth schema = true) (later : depth ≤ more)
    (document : Value) : table.admits dialect reader assumed more schema document =
      table.admits dialect reader other depth schema document := by
  induction depth generalizing more schema document with
  | zero => cases ends
  | succ depth ih =>
    obtain ⟨more, rfl⟩ := Nat.exists_eq_add_of_le' later
    apply Value.admits_congr
    intro object found target member
    funext document
    have own := List.all_eq_true.mp (List.all_eq_true.mp ends object found) _ member
    change table.follows dialect reader assumed (more + depth) target document =
      table.follows dialect reader other depth target document
    unfold follows
    cases resolved : table.body? dialect.base target with
    | none => rfl
    | some body =>
      have inner : table.endsBefore dialect.base depth body = true := by
        simpa [Value.isText, resolved] using own
      exact ih inner (Nat.le_add_left depth more) document

end Table

end Schemata
